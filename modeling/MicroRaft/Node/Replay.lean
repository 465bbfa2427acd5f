import MicroRaft.Node.Commit
import MicroRaft.Group.Growth

/-!
# Replaying a numbered log

The handlers replay configuration entries by number: up to an index, or above
one.  On a numbered log this is replaying a prefix or a suffix by position, so
that what is known of a longer replay is known of its parts.
-/

namespace MicroRaft

variable {l : List Entry} {g m : CommittedMembership}

theorem Numbered.filter_le {start : Nat} (h : Numbered start l) (b : Nat) :
    (l.filter fun e => e.index ≤ b) = l.take (b - start) := by
  by_cases hb : start < b + 1
  · have hlt := h.filter_lt hb
    rw [show b + 1 - start - 1 = b - start by omega] at hlt
    rw [← hlt]
    exact List.filter_congr fun e _ => decide_eq_decide.2 Nat.lt_succ_iff.symm
  · rw [show b - start = 0 by omega, List.take_zero, List.filter_eq_nil_iff]
    intro e he
    have := (h.mem_bounds he).1
    simp
    omega

theorem replay_eq {start : Nat} (h : Numbered start l) (m : CommittedMembership)
    (through : Nat) : replay m l through = membershipAfter m (l.take (through - start)) := by
  rw [replay, h.filter_le]
  rfl

/-- A bound no entry exceeds is no bound. -/
theorem replay_all {through : Nat} (h : ∀ e ∈ l, e.index ≤ through)
    (m : CommittedMembership) : replay m l through = membershipAfter m l := by
  rw [replay, List.filter_eq_self.2 (by simpa using h)]
  rfl

/-- Replaying a log that starts after a prefix is replaying both from the beginning. -/
theorem membershipAfter_split {k : List Entry} (h : membershipAfter g k = .ok m) (l : List Entry) :
    membershipAfter m l = membershipAfter g (k ++ l) := by
  rw [membershipAfter_append, h]
  rfl

/-- A log that can be replayed can be replayed up to any position, and from there. -/
theorem membershipAfter_cut (h : membershipAfter g l = .ok m) (i : Nat) :
    ∃ m', membershipAfter g (l.take i) = .ok m' ∧ membershipAfter m' (l.drop i) = .ok m := by
  rw [← List.take_append_drop i l, membershipAfter_append, bind_eq_ok] at h
  exact h

theorem effectiveAfter_eq {start commit : Nat} (h : Numbered start l)
    (hstart : start ≤ commit) (hbound : ∀ e ∈ l, e.index ≤ u64Max) (m : CommittedMembership) :
    effectiveAfter m l commit =
      (membershipAfter m (l.drop (commit - start)) >>= fun m => .ok m.state) := by
  unfold effectiveAfter
  rw [h.filter_gt hstart, replay_all fun e he => hbound e (List.mem_of_mem_drop he)]

/-- Without configuration entries the membership stays. -/
theorem membershipAfter_of_not_conf {m : CommittedMembership}
    (h : ∀ e ∈ l, e.command.isConfiguration = false) : membershipAfter m l = .ok m := by
  induction l with
  | nil => rfl
  | cons e l ih =>
    show (replayEntry m e >>= fun m => membershipAfter m l) = _
    rw [replayEntry_of_not_conf (h e (List.mem_cons_self ..))]
    exact ih fun e' he' => h e' (List.mem_cons_of_mem _ he')

/-- A replay ends at most where the log does. -/
theorem membershipAfter_position {start : Nat}
    (hnum : Numbered start l) (hstart : g.index ≤ start) (hm : membershipAfter g l = .ok m) :
    m.index ≤ start + l.length := by
  rcases membershipAfter_origin hm with rfl | ⟨e, he, -, hindex, -⟩
  · omega
  · have := (hnum.mem_bounds he).2
    omega

/-- A replay reaches no term beyond those of the log. -/
theorem membershipAfter_term {T : Nat}
    (hg : g.term ≤ T) (hl : ∀ e ∈ l, e.term ≤ T) (hm : membershipAfter g l = .ok m) :
    m.term ≤ T := by
  rcases membershipAfter_origin hm with rfl | ⟨e, he, -, -, hterm⟩
  · exact hg
  · exact hterm ▸ hl e he

end MicroRaft
