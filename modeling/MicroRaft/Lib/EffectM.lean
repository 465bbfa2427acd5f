import Mathlib

/-!
# Programs that change a state, emit effects and may abort

`EffectM σ ε α` is the shape of a sans-I/O state machine: a computation reads
and updates a state `σ`, appends effects `ε` to an ordered batch, and either
returns a value or aborts (`none`), in which case neither the new state nor the
batch is observable.

The second half is a small program logic.  A batch is explained by a relation
`Step : σ → List ε → σ → Prop` saying what one elementary move may do; `Run` is
its closure, and `Triple` says that a program started under a precondition
makes a run of elementary moves and ends in a postcondition.  `Emits` speaks about
the batch alone, whatever the state: which effects a program emits, and in which
of two phases (`Phased`).
-/

/-- A state-passing computation with an ordered effect batch that may abort. -/
def EffectM (σ ε α : Type) : Type := σ → Option (α × σ × List ε)

namespace EffectM

variable {σ ε α β : Type}

instance : Monad (EffectM σ ε) where
  pure a := fun s => some (a, s, [])
  bind m f := fun s =>
    match m s with
    | none => none
    | some (a, s₁, e₁) =>
        match f a s₁ with
        | none => none
        | some (b, s₂, e₂) => some (b, s₂, e₁ ++ e₂)

/-- The current state. -/
def peek : EffectM σ ε σ := fun s => some (s, s, [])

/-- Replace the state. -/
def update (f : σ → σ) : EffectM σ ε Unit := fun s => some ((), f s, [])

/-- Append effects to the batch. -/
def emits (es : List ε) : EffectM σ ε Unit := fun s => some ((), s, es)

/-- Append one effect to the batch. -/
def emit (e : ε) : EffectM σ ε Unit := emits [e]

/-- Run a program only under a condition. -/
def when (c : Prop) [Decidable c] (m : EffectM σ ε Unit) : EffectM σ ε Unit :=
  if c then m else pure ()

/-- Abort unless there is a value. -/
def expect (o : Option α) : EffectM σ ε α := fun s => o.map fun a => (a, s, [])

/-- Abort unless a condition holds. -/
def require (c : Prop) [Decidable c] : EffectM σ ε Unit := expect (if c then some () else none)

/-! ## Equations -/

theorem pure_apply (a : α) (s : σ) : (pure a : EffectM σ ε α) s = some (a, s, []) := rfl

theorem bind_apply (m : EffectM σ ε α) (f : α → EffectM σ ε β) (s : σ) :
    (m >>= f) s = (m s).bind fun r => (f r.1 r.2.1).map fun q => (q.1, q.2.1, r.2.2 ++ q.2.2) := by
  show (match m s with
    | none => none
    | some (a, s₁, e₁) => match f a s₁ with
      | none => none
      | some (b, s₂, e₂) => some (b, s₂, e₁ ++ e₂)) = _
  cases m s with
  | none => rfl
  | some r =>
    obtain ⟨a, s₁, e₁⟩ := r
    simp only [Option.bind_some]
    cases f a s₁ <;> rfl

theorem bind_eq_some {m : EffectM σ ε α} {f : α → EffectM σ ε β} {s : σ} {b : β} {s' : σ}
    {es : List ε} (h : (m >>= f) s = some (b, s', es)) :
    ∃ a s₁ e₁ e₂, m s = some (a, s₁, e₁) ∧ f a s₁ = some (b, s', e₂) ∧ es = e₁ ++ e₂ := by
  rw [bind_apply] at h
  obtain ⟨⟨a, s₁, e₁⟩, hm, hf⟩ := Option.bind_eq_some_iff.1 h
  obtain ⟨⟨b', s₂, e₂⟩, hf', heq⟩ := Option.map_eq_some_iff.1 hf
  cases heq
  exact ⟨a, s₁, e₁, e₂, hm, hf', rfl⟩

/-- Executions compose. -/
theorem bind_some {m : EffectM σ ε α} {f : α → EffectM σ ε β} {s s₁ s' : σ} {a : α} {b : β}
    {e₁ e₂ : List ε} (hm : m s = some (a, s₁, e₁)) (hf : f a s₁ = some (b, s', e₂)) :
    (m >>= f) s = some (b, s', e₁ ++ e₂) := by
  rw [bind_apply, hm, Option.bind_some, hf]
  rfl

theorem peek_bind (f : σ → EffectM σ ε β) (s : σ) : (peek >>= f) s = f s s := by
  rw [bind_apply]
  cases h : f s s <;> simp [peek, h]

theorem update_bind (g : σ → σ) (f : Unit → EffectM σ ε β) (s : σ) :
    (update g >>= f) s = f () (g s) := by
  rw [bind_apply]
  cases h : f () (g s) <;> simp [update, h]

theorem require_bind {c : Prop} [Decidable c] (h : c) (f : Unit → EffectM σ ε β) (s : σ) :
    (require c >>= f) s = f () s := by
  rw [bind_apply]
  cases hf : f () s <;> simp [require, expect, h, hf]

/-! ## Inversion

What is known about a completed execution, read off from the front of the program. -/

theorem update_bind_inv {g : σ → σ} {f : Unit → EffectM σ ε β} {s : σ} {r : β × σ × List ε}
    (h : (update g >>= f) s = some r) : ∃ s₁, s₁ = g s ∧ f () s₁ = some r :=
  ⟨g s, rfl, by rwa [update_bind] at h⟩

theorem emits_bind_inv {es : List ε} {f : Unit → EffectM σ ε β} {s s' : σ} {b : β}
    {es' : List ε} (h : (emits es >>= f) s = some (b, s', es')) :
    ∃ e₂, f () s = some (b, s', e₂) ∧ es' = es ++ e₂ := by
  obtain ⟨a, s₁, e₁, e₂, h₁, h₂, rfl⟩ := bind_eq_some h
  cases h₁
  exact ⟨e₂, h₂, rfl⟩

theorem emit_bind_inv {e : ε} {f : Unit → EffectM σ ε β} {s s' : σ} {b : β} {es : List ε}
    (h : (emit e >>= f) s = some (b, s', es)) :
    ∃ e₂, f () s = some (b, s', e₂) ∧ es = e :: e₂ :=
  emits_bind_inv h

theorem expect_bind_inv {o : Option α} {f : α → EffectM σ ε β} {s : σ} {r : β × σ × List ε}
    (h : (expect o >>= f) s = some r) : ∃ a, o = some a ∧ f a s = some r := by
  obtain ⟨b, s', es⟩ := r
  obtain ⟨a, s₁, e₁, e₂, h₁, h₂, rfl⟩ := bind_eq_some h
  obtain ⟨a', ho, heq⟩ := Option.map_eq_some_iff.1 h₁
  cases heq
  exact ⟨a, ho, h₂⟩

theorem require_bind_inv {c : Prop} [Decidable c] {f : Unit → EffectM σ ε β} {s : σ}
    {r : β × σ × List ε} (h : (require c >>= f) s = some r) : c ∧ f () s = some r := by
  obtain ⟨a, ha, h⟩ := expect_bind_inv h
  split at ha
  · exact ⟨‹_›, h⟩
  · cases ha

theorem when_inv {c : Prop} [Decidable c] {m : EffectM σ ε Unit} {s s' : σ} {u : Unit}
    {es : List ε} (h : when c m s = some (u, s', es)) :
    (c ∧ m s = some (u, s', es)) ∨ (¬ c ∧ s' = s ∧ es = []) := by
  unfold when at h
  split at h
  · exact Or.inl ⟨‹_›, h⟩
  · cases h
    exact Or.inr ⟨‹_›, rfl, rfl⟩

/-! ## Runs of elementary moves -/

/-- Finitely many elementary moves, with the concatenation of what they emit. -/
inductive Run (Step : σ → List ε → σ → Prop) : σ → List ε → σ → Prop
  | nil (s : σ) : Run Step s [] s
  | cons {s s₁ s₂ : σ} {e es : List ε} : Step s e s₁ → Run Step s₁ es s₂ →
      Run Step s (e ++ es) s₂

variable {Step : σ → List ε → σ → Prop}

theorem Run.single {s s' : σ} {e : List ε} (h : Step s e s') : Run Step s e s' := by
  simpa using Run.cons h (Run.nil s')

theorem Run.trans {s s₁ s₂ : σ} {e es : List ε} (h₁ : Run Step s e s₁) (h₂ : Run Step s₁ es s₂) :
    Run Step s (e ++ es) s₂ := by
  induction h₁ with
  | nil => simpa using h₂
  | cons hstep _ ih =>
    rw [List.append_assoc]
    exact Run.cons hstep (ih h₂)

/-- A relation between states that every move preserves is preserved by a run. -/
theorem Run.invariant {P : σ → Prop} (hP : ∀ {s e s'}, Step s e s' → P s → P s')
    {s s' : σ} {es : List ε} (h : Run Step s es s') (hs : P s) : P s' := by
  induction h with
  | nil => exact hs
  | cons hstep _ ih => exact ih (hP hstep hs)

/-- When every move emits at most one effect, each prefix of the batch is itself
the batch of a run from the same start. -/
theorem Run.take (hone : ∀ {s e s'}, Step s e s' → e.length ≤ 1) {s s' : σ} {es : List ε}
    (h : Run Step s es s') : ∀ k, ∃ m, Run Step s (es.take k) m := by
  induction h with
  | nil s => exact fun k => ⟨s, by simpa using Run.nil s⟩
  | @cons s s₁ s₂ e es hstep _ ih =>
    intro k
    by_cases hk : e.length ≤ k
    · obtain ⟨m, hm⟩ := ih (k - e.length)
      refine ⟨m, ?_⟩
      rw [List.take_append, List.take_of_length_le hk]
      exact Run.cons hstep hm
    · have hlen := hone hstep
      have hk0 : k = 0 := by omega
      subst hk0
      exact ⟨s, by simpa using Run.nil s⟩

/-! ## Triples -/

/-- Started in a state satisfying `P`, every completed execution of `m` is a run of
elementary moves and its result satisfies `Q`. -/
def Triple (Step : σ → List ε → σ → Prop) (P : σ → Prop) (m : EffectM σ ε α)
    (Q : α → σ → Prop) : Prop :=
  ∀ ⦃s a s' es⦄, P s → m s = some (a, s', es) → Run Step s es s' ∧ Q a s'

namespace Triple

variable {P : σ → Prop} {Q : α → σ → Prop} {R : β → σ → Prop}

theorem pure {a : α} (h : ∀ s, P s → Q a s) : Triple Step P (pure a) Q := by
  intro s a' s' es hP heq
  rw [pure_apply] at heq
  cases heq
  exact ⟨Run.nil s, h s hP⟩

theorem bind {m : EffectM σ ε α} {f : α → EffectM σ ε β} (hm : Triple Step P m Q)
    (hf : ∀ a, Triple Step (Q a) (f a) R) : Triple Step P (m >>= f) R := by
  intro s b s' es hP heq
  obtain ⟨a, s₁, e₁, e₂, h₁, h₂, rfl⟩ := bind_eq_some heq
  obtain ⟨hrun₁, hQ⟩ := hm hP h₁
  obtain ⟨hrun₂, hR⟩ := hf a hQ h₂
  exact ⟨hrun₁.trans hrun₂, hR⟩

/-- A loop whose body keeps an invariant keeps it. -/
theorem forM {l : List β} {f : β → EffectM σ ε PUnit} {I : σ → Prop}
    (h : ∀ x ∈ l, Triple Step I (f x) fun _ => I) : Triple Step I (l.forM f) fun _ => I := by
  induction l with
  | nil => exact pure fun _ hs => hs
  | cons x l ih =>
    show Triple Step I (f x >>= fun _ => l.forM f) _
    exact bind (h x (List.mem_cons_self ..))
      fun _ => ih fun y hy => h y (List.mem_cons_of_mem _ hy)

end Triple

/-! ## What a program emits -/

/-- Every completed execution emits a batch with the property. -/
def Emits (P : List ε → Prop) (m : EffectM σ ε α) : Prop :=
  ∀ ⦃s a s' es⦄, m s = some (a, s', es) → P es

namespace Emits

variable {P Q R : List ε → Prop} {p q : ε → Prop}

theorem mono {m : EffectM σ ε α} (h : Emits P m) (hPQ : ∀ es, P es → Q es) : Emits Q m :=
  fun _ _ _ es hm => hPQ es (h hm)

theorem pure {a : α} (h : P []) : Emits P (pure a : EffectM σ ε α) := by
  intro s a' s' es heq
  cases heq
  exact h

theorem bind {m : EffectM σ ε α} {f : α → EffectM σ ε β} (hm : Emits P m)
    (hf : ∀ a, Emits Q (f a)) (happend : ∀ es es', P es → Q es' → R (es ++ es')) :
    Emits R (m >>= f) := by
  intro s b s' es heq
  obtain ⟨a, s₁, e₁, e₂, h₁, h₂, rfl⟩ := bind_eq_some heq
  exact happend _ _ (hm h₁) (hf a h₂)

theorem peek {f : σ → EffectM σ ε β} (h : ∀ s, Emits P (f s)) :
    Emits P (EffectM.peek >>= f) := by
  intro s b s' es heq
  rw [peek_bind] at heq
  exact h s heq

theorem update {g : σ → σ} {f : Unit → EffectM σ ε β} (h : Emits P (f ())) :
    Emits P (EffectM.update g >>= f) := by
  intro s b s' es heq
  rw [update_bind] at heq
  exact h heq

theorem update_only {g : σ → σ} (h : P []) : Emits P (EffectM.update g : EffectM σ ε Unit) := by
  intro s b s' es heq
  cases heq
  exact h

theorem expect {o : Option α} {f : α → EffectM σ ε β} (h : ∀ a, Emits P (f a)) :
    Emits P (EffectM.expect o >>= f) := by
  intro s b s' es heq
  obtain ⟨a, -, heq⟩ := expect_bind_inv heq
  exact h a heq

theorem require {c : Prop} [Decidable c] {f : Unit → EffectM σ ε β} (h : Emits P (f ())) :
    Emits P (EffectM.require c >>= f) :=
  expect fun _ => h

theorem ite {c : Prop} [Decidable c] {m₁ m₂ : EffectM σ ε α} (h₁ : Emits P m₁) (h₂ : Emits P m₂) :
    Emits P (if c then m₁ else m₂) := by
  split
  · exact h₁
  · exact h₂

theorem when {c : Prop} [Decidable c] {m : EffectM σ ε Unit} (h : Emits P m) (hnil : P []) :
    Emits P (when c m) :=
  ite h (pure hnil)

theorem emits {es : List ε} (h : P es) : Emits P (EffectM.emits es : EffectM σ ε Unit) := by
  intro s a s' es' heq
  cases heq
  exact h

theorem emit {e : ε} (h : P [e]) : Emits P (EffectM.emit e : EffectM σ ε Unit) := emits h

end Emits

/-! ## Batches of one kind of effect -/

/-- Every effect of the batch is of the kind. -/
def Only (p : ε → Prop) (es : List ε) : Prop := ∀ e ∈ es, p e

variable {p q : ε → Prop}

theorem Only.nil : Only p [] := fun _ he => absurd he List.not_mem_nil

theorem Only.append {es es' : List ε} (h : Only p es) (h' : Only p es') : Only p (es ++ es') :=
  fun e he => (List.mem_append.1 he).elim (h e) (h' e)

theorem Only.single {e : ε} (h : p e) : Only p [e] := fun _ he => List.mem_singleton.1 he ▸ h

theorem Only.map {γ : Type} {f : γ → ε} {l : List γ} (h : ∀ x ∈ l, p (f x)) : Only p (l.map f) := by
  intro e he
  obtain ⟨x, hx, rfl⟩ := List.mem_map.1 he
  exact h x hx

namespace Emits

theorem seq {m : EffectM σ ε α} {f : α → EffectM σ ε β} (hm : Emits (Only p) m)
    (hf : ∀ a, Emits (Only p) (f a)) : Emits (Only p) (m >>= f) :=
  bind hm hf fun _ _ => Only.append

theorem forM {l : List α} {f : α → EffectM σ ε PUnit} (h : ∀ x, Emits (Only p) (f x)) :
    Emits (Only p) (l.forM f) := by
  induction l with
  | nil => exact pure Only.nil
  | cons x l ih =>
    show Emits _ (f x >>= fun _ => l.forM f)
    exact seq (h x) fun _ => ih

end Emits

/-! ## Two phases -/

/-- A batch in two phases, each with one kind of effect. -/
def Phased (p q : ε → Prop) (es : List ε) : Prop :=
  ∃ first second, es = first ++ second ∧ Only p first ∧ Only q second

theorem Phased.of_first {es : List ε} (h : Only p es) : Phased p q es :=
  ⟨es, [], (List.append_nil es).symm, h, Only.nil⟩

theorem Phased.of_second {es : List ε} (h : Only q es) : Phased p q es :=
  ⟨[], es, rfl, Only.nil, h⟩

theorem Phased.nil : Phased p q [] := .of_first Only.nil

theorem Phased.after {es es' : List ε} (h : Only p es) (h' : Phased p q es') :
    Phased p q (es ++ es') := by
  obtain ⟨first, second, rfl, hf, hs⟩ := h'
  exact ⟨es ++ first, second, (List.append_assoc ..).symm, h.append hf, hs⟩

theorem Phased.before {es es' : List ε} (h : Phased p q es) (h' : Only q es') :
    Phased p q (es ++ es') := by
  obtain ⟨first, second, rfl, hf, hs⟩ := h
  exact ⟨first, second ++ es', List.append_assoc .., hf, hs.append h'⟩

namespace Emits

/-- A program of the first phase, then one that goes through both. -/
theorem first {m : EffectM σ ε α} {f : α → EffectM σ ε β} (hm : Emits (Only p) m)
    (hf : ∀ a, Emits (Phased p q) (f a)) : Emits (Phased p q) (m >>= f) :=
  bind hm hf fun _ _ => Phased.after

/-- A program that goes through both phases, then one of the second. -/
theorem second {m : EffectM σ ε α} {f : α → EffectM σ ε β} (hm : Emits (Phased p q) m)
    (hf : ∀ a, Emits (Only q) (f a)) : Emits (Phased p q) (m >>= f) :=
  bind hm hf fun _ _ => Phased.before

end Emits

end EffectM
