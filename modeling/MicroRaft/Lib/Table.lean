import Mathlib

/-!
# Ordered tables

Search trees seen as tables of bindings: what is listed, what an insertion
changes, and the list of their values put in the order of a numeric key.
-/

namespace Table

variable {K V : Type} [Ord K] [Std.TransOrd K] [Std.LawfulEqOrd K]

variable {m : Std.ExtTreeMap K V compare} {l : List (K × V)} {k : K} {v : V}

theorem mem_toList {p : K × V} : p ∈ m.toList ↔ m[p.1]? = some p.2 :=
  Std.ExtTreeMap.mem_toList_iff_getElem?_eq_some

theorem getElem?_insert [DecidableEq K] {k a : K} :
    (m.insert k v)[a]? = if a = k then some v else m[a]? := by
  rw [Std.ExtTreeMap.getElem?_insert]
  simp only [Std.compare_eq_iff_eq, eq_comm (a := a)]

theorem getElem?_erase [DecidableEq K] {k a : K} :
    (m.erase k)[a]? = if a = k then none else m[a]? := by
  rw [Std.ExtTreeMap.getElem?_erase]
  simp only [Std.compare_eq_iff_eq, eq_comm (a := a)]

/-- Writing back what is there changes nothing. -/
theorem insert_eq_self (h : m[k]? = some v) : m.insert k v = m := by
  classical
  refine Std.ExtTreeMap.ext_getElem? fun a => ?_
  rw [getElem?_insert]
  split
  · rename_i heq
    rw [heq, h]
  · rfl

omit [Std.LawfulEqOrd K] in
theorem size_insert_of_none (h : m[k]? = none) : (m.insert k v).size = m.size + 1 := by
  rw [Std.ExtTreeMap.size_insert, if_neg]
  rw [Std.ExtTreeMap.contains_eq_isSome_getElem?, h]
  exact Bool.false_ne_true

omit [Std.LawfulEqOrd K] in
theorem size_insert_of_some {v w : V} (h : m[k]? = some w) : (m.insert k v).size = m.size := by
  rw [Std.ExtTreeMap.size_insert, if_pos]
  rw [Std.ExtTreeMap.contains_eq_isSome_getElem?, h]
  rfl

/-! ## Sums and lists of bindings -/

/-- The sum of a measure over all bindings. -/
def total (f : K → V → Nat) (m : Std.ExtTreeMap K V compare) : Nat :=
  (m.toList.map fun p => f p.1 p.2).sum

omit [Std.LawfulEqOrd K] in
theorem nodup_toList (m : Std.ExtTreeMap K V compare) : m.toList.Nodup := by
  refine List.Pairwise.imp (fun {p q} hne heq => hne ?_)
    (Std.ExtTreeMap.distinct_keys_toList (t := m))
  rw [heq]
  exact Std.ReflCmp.compare_self

theorem nodup_keys (m : Std.ExtTreeMap K V compare) : (m.toList.map Prod.fst).Nodup := by
  refine List.pairwise_map.2 (List.Pairwise.imp (fun {p q} hne heq => hne ?_)
    (Std.ExtTreeMap.distinct_keys_toList (t := m)))
  rw [heq]
  exact Std.ReflCmp.compare_self

/-- Two lists of all bindings have the same sums. -/
theorem total_eq_sum (f : K → V → Nat) (hl : l.Nodup) (hmem : ∀ p, p ∈ l ↔ m[p.1]? = some p.2) :
    (l.map fun p => f p.1 p.2).sum = total f m := by
  refine List.Perm.sum_eq (List.Perm.map _ ?_)
  refine (List.perm_ext_iff_of_nodup hl (nodup_toList m)).2 fun p => ?_
  rw [hmem, mem_toList]

omit [Std.LawfulEqOrd K] in
theorem total_empty (f : K → V → Nat) : total f (∅ : Std.ExtTreeMap K V compare) = 0 := by
  rw [total, Std.ExtTreeMap.toList_eq_nil_iff.2 rfl]
  rfl

theorem total_insert_of_none (f : K → V → Nat)
    (h : m[k]? = none) : total f (m.insert k v) = total f m + f k v := by
  classical
  have hsum := total_eq_sum (m := m.insert k v) (l := (k, v) :: m.toList) f ?_ fun p => ?_
  · rw [← hsum, List.map_cons, List.sum_cons, total, Nat.add_comm]
  · refine List.nodup_cons.2 ⟨fun hin => ?_, nodup_toList m⟩
    rw [mem_toList, h] at hin
    cases hin
  · obtain ⟨a, w⟩ := p
    rw [List.mem_cons, mem_toList, getElem?_insert, Prod.mk.injEq]
    by_cases ha : a = k
    · subst ha
      rw [if_pos rfl, h]
      simp [eq_comm]
    · rw [if_neg ha]
      simp [ha]

theorem total_insert_of_some {v w : V} (f : K → V → Nat)
    (h : m[k]? = some w) : total f (m.insert k v) + f k w = total f m + f k v := by
  classical
  -- both tables are the table without the key and one binding
  have hnone : (m.erase k)[k]? = none := by rw [getElem?_erase, if_pos rfl]
  have hback : ∀ x, (m.erase k).insert k x = m.insert k x := fun x => by
    refine Std.ExtTreeMap.ext_getElem? fun a => ?_
    rw [getElem?_insert, getElem?_insert, getElem?_erase]
    split <;> rfl
  have hold := total_insert_of_none (v := w) f hnone
  have hnew := total_insert_of_none (v := v) f hnone
  rw [hback, insert_eq_self h] at hold
  rw [hback] at hnew
  omega

/-- A binding counts at most as much as all bindings. -/
theorem le_total (f : K → V → Nat) (h : m[k]? = some v) : f k v ≤ total f m := by
  refine List.single_le_sum (fun _ _ => Nat.zero_le _) _ ?_
  exact List.mem_map.2 ⟨(k, v), mem_toList.2 h, rfl⟩

/-- Inserting bindings that are all new, one after the other. -/
theorem getElem?_foldl_insert (hl : (l.map Prod.fst).Nodup) (m : Std.ExtTreeMap K V compare) :
    (l.foldl (fun m p => m.insert p.1 p.2) m)[k]? = some v ↔
      (k, v) ∈ l ∨ (m[k]? = some v ∧ k ∉ l.map Prod.fst) := by
  classical
  induction l generalizing m with
  | nil => simp
  | cons p l ih =>
    obtain ⟨hnew, hl⟩ := List.nodup_cons.1 hl
    rw [List.foldl_cons, ih hl, getElem?_insert, List.mem_cons, List.map_cons, List.mem_cons]
    by_cases hk : k = p.1
    · subst hk
      have hnot : (p.1, v) ∉ l := fun hin => hnew (List.mem_map.2 ⟨_, hin, rfl⟩)
      rw [if_pos rfl]
      constructor
      · rintro (hin | ⟨hv, -⟩)
        · exact absurd hin hnot
        · rw [Option.some.injEq] at hv
          exact .inl (.inl (by rw [← hv]))
      · rintro ((heq | hin) | ⟨-, hout⟩)
        · exact .inr ⟨by rw [← heq], hnew⟩
        · exact absurd hin hnot
        · exact absurd (Or.inl rfl) hout
    · rw [if_neg hk]
      constructor
      · rintro (hin | ⟨hv, hout⟩)
        · exact .inl (.inr hin)
        · exact .inr ⟨hv, by simp [hk, hout]⟩
      · rintro ((heq | hin) | ⟨hv, hout⟩)
        · exact absurd (by rw [← heq]) hk
        · exact .inl hin
        · exact .inr ⟨hv, fun hin => hout (.inr hin)⟩

/-- A table is built from any list of its bindings. -/
theorem foldl_insert_eq (hl : (l.map Prod.fst).Nodup) (hmem : ∀ p, p ∈ l ↔ m[p.1]? = some p.2) :
    l.foldl (fun m p => m.insert p.1 p.2) ∅ = m := by
  refine Std.ExtTreeMap.ext_getElem? fun k => Option.ext fun v => ?_
  rw [getElem?_foldl_insert hl, hmem]
  simp

theorem isEmpty_of_none (h : ∀ k : K, m[k]? = none) : m.isEmpty = true := by
  refine Std.ExtTreeMap.isEmpty_iff.2 (Std.ExtTreeMap.ext_getElem? fun k => ?_)
  rw [h k, Std.ExtTreeMap.getElem?_empty]

end Table
