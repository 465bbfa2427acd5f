import Mathlib

/-!
# Incremental decoders

A decoder that is fed a stream in pieces.  From what is buffered it either needs more
symbols, takes an item off the front, or fails; and what it decides never changes when
more symbols arrive behind (`Decoder`).  Draining such a decoder after every piece gives
the items of the whole stream, however it was cut (`run_eq_drain`).
-/

namespace Incremental

variable {σ α ε : Type*}

/-- What a decoder does with its buffer. -/
inductive Step (σ α ε : Type*) where
  | more
  | item (a : α) (rest : List σ)
  | fail (e : ε)

/-- The step of a buffer behind which `x` has arrived. -/
def Step.push (x : List σ) : Step σ α ε → Step σ α ε
  | .item a rest => .item a (rest ++ x)
  | step => step

/-- A decoder takes at least one symbol with every item, and decides no differently when
more symbols follow. -/
structure Decoder (σ α ε : Type*) where
  next : List σ → Step σ α ε
  consumes : ∀ {buf a rest}, next buf = .item a rest → rest.length < buf.length
  next_append : ∀ {buf} (x : List σ), next buf ≠ .more → next (buf ++ x) = (next buf).push x

/-- The items taken, and the error or the symbols that are left. -/
structure Outcome (σ α ε : Type*) where
  items : List α
  rest : Except ε (List σ)
  deriving DecidableEq

/-- An outcome after items that were taken earlier. -/
def Outcome.after (items : List α) (o : Outcome σ α ε) : Outcome σ α ε :=
  ⟨items ++ o.items, o.rest⟩

/-- An outcome continued with what is left, unless it is an error. -/
def Outcome.andThen (o : Outcome σ α ε) (f : List σ → Outcome σ α ε) : Outcome σ α ε :=
  match o.rest with
  | .error _ => o
  | .ok rest => (f rest).after o.items

@[simp] theorem Outcome.after_nil (o : Outcome σ α ε) : o.after [] = o := rfl

theorem Outcome.after_after (x y : List α) (o : Outcome σ α ε) :
    (o.after y).after x = o.after (x ++ y) := by
  simp [after]

theorem Outcome.after_andThen (x : List α) (o : Outcome σ α ε) (f : List σ → Outcome σ α ε) :
    (o.andThen f).after x = (o.after x).andThen f := by
  obtain ⟨items, rest⟩ := o
  cases rest with
  | error e => rfl
  | ok rest => exact after_after x items (f rest)

namespace Decoder

variable (d : Decoder σ α ε)

theorem item_append {buf rest : List σ} {a : α} (x : List σ) (h : d.next buf = .item a rest) :
    d.next (buf ++ x) = .item a (rest ++ x) := by
  rw [d.next_append x (by simp [h]), h, Step.push]

theorem fail_append {buf : List σ} {e : ε} (x : List σ) (h : d.next buf = .fail e) :
    d.next (buf ++ x) = .fail e := by
  rw [d.next_append x (by simp [h]), h]
  rfl

/-- Take items until more symbols are needed or the decoder fails, at most `fuel` times. -/
def drainFuel : Nat → List σ → Outcome σ α ε
  | 0, buf => ⟨[], .ok buf⟩
  | fuel + 1, buf =>
      match d.next buf with
      | .more => ⟨[], .ok buf⟩
      | .item a rest => (drainFuel fuel rest).after [a]
      | .fail e => ⟨[], .error e⟩

/-- Take items until more symbols are needed or the decoder fails.  Every item takes a
symbol, so the length of the buffer bounds the rounds. -/
def drain (buf : List σ) : Outcome σ α ε :=
  d.drainFuel (buf.length + 1) buf

/-- Feed the pieces of a stream one by one, draining after each, until the decoder fails. -/
def run (buf : List σ) : List (List σ) → Outcome σ α ε
  | [] => ⟨[], .ok buf⟩
  | piece :: pieces => (d.drain (buf ++ piece)).andThen fun rest => run rest pieces

theorem drainFuel_of_lt {m n : Nat} {buf : List σ} (hm : buf.length < m) (hn : buf.length < n) :
    d.drainFuel m buf = d.drainFuel n buf := by
  induction m generalizing n buf with
  | zero => omega
  | succ m ih =>
    obtain ⟨n, rfl⟩ : ∃ k, n = k + 1 := ⟨n - 1, by omega⟩
    rw [drainFuel, drainFuel]
    cases hnext : d.next buf with
    | more => rfl
    | fail e => rfl
    | item a rest =>
      have hless := d.consumes hnext
      have hrest : d.drainFuel m rest = d.drainFuel n rest := ih (by omega) (by omega)
      simp only [hrest]

/-! The three equations of `drain`, by what the decoder does with the buffer. -/

theorem drain_more {buf : List σ} (h : d.next buf = .more) : d.drain buf = ⟨[], .ok buf⟩ := by
  rw [drain, drainFuel, h]

theorem drain_fail {buf : List σ} {e : ε} (h : d.next buf = .fail e) :
    d.drain buf = ⟨[], .error e⟩ := by
  rw [drain, drainFuel, h]

theorem drain_item {buf rest : List σ} {a : α} (h : d.next buf = .item a rest) :
    d.drain buf = (d.drain rest).after [a] := by
  have hless := d.consumes h
  rw [drain, drainFuel, h]
  dsimp only
  rw [drain, d.drainFuel_of_lt hless (Nat.lt_succ_self rest.length)]

/-- Draining ends: what is left needs more symbols. -/
theorem next_of_drain {buf rest : List σ} (h : (d.drain buf).rest = .ok rest) :
    d.next rest = .more := by
  induction hn : buf.length using Nat.strong_induction_on generalizing buf with
  | _ n ih =>
    cases hnext : d.next buf with
    | more =>
      rw [d.drain_more hnext] at h
      obtain rfl : buf = rest := by simpa using h
      exact hnext
    | fail e =>
      rw [d.drain_fail hnext] at h
      cases h
    | item a tail =>
      rw [d.drain_item hnext] at h
      exact ih tail.length (hn ▸ d.consumes hnext) h rfl

/-- Draining a buffer and then what follows is draining both at once. -/
theorem drain_append (buf x : List σ) :
    d.drain (buf ++ x) = (d.drain buf).andThen fun rest => d.drain (rest ++ x) := by
  induction hn : buf.length using Nat.strong_induction_on generalizing buf with
  | _ n ih =>
    cases hnext : d.next buf with
    | more =>
      rw [d.drain_more hnext]
      rfl
    | fail e =>
      rw [d.drain_fail hnext, d.drain_fail (d.fail_append x hnext)]
      rfl
    | item a rest =>
      have hrest := ih rest.length (hn ▸ d.consumes hnext) rest rfl
      rw [d.drain_item hnext, d.drain_item (d.item_append x hnext), hrest,
        Outcome.after_andThen]

/-- **Cutting does not matter.**  Feeding the pieces of a stream to a decoder that waits
for more symbols gives what draining the whole stream gives. -/
theorem run_eq_drain {buf : List σ} (hbuf : d.next buf = .more) (pieces : List (List σ)) :
    d.run buf pieces = d.drain (buf ++ pieces.flatten) := by
  induction pieces generalizing buf with
  | nil =>
    rw [List.flatten_nil, List.append_nil, d.drain_more hbuf]
    rfl
  | cons piece pieces ih =>
    rw [run, List.flatten_cons, ← List.append_assoc, d.drain_append (buf ++ piece)]
    cases hdrain : (d.drain (buf ++ piece)).rest with
    | error e => simp only [Outcome.andThen, hdrain]
    | ok rest =>
      simp only [Outcome.andThen, hdrain]
      rw [ih (d.next_of_drain hdrain)]

end Decoder

end Incremental
