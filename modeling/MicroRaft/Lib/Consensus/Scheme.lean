import Mathlib

/-!
# Logs whose entries carry their own quorum rule

A replicated log is a list of entries.  Each entry belongs to a term, and some
entries are *configuration* entries: the configuration in force after a log is
a function of the log, and it decides which sets of nodes are quorums.  A
`Scheme` collects this together with the overlap laws a protocol needs from its
configurations:

* two quorums of one configuration meet;
* a quorum of a configuration meets every quorum of the configuration that one
  more entry produces (*adjacent* configurations);
* quorums of two configurations that are produced from one and the same
  configuration by one entry each meet (*sibling* configurations).

The main lemma, `Scheme.meet_of_under`, lifts the laws to whole logs: quorums of
two logs meet as soon as each log contains what lies *under* the newest
configuration entry of the other.
-/

namespace Consensus

/-- Terms, configurations and quorums of the logs of a protocol. -/
structure Scheme (ν ε : Type) where
  termOf : ε → ℕ
  isConf : ε → Bool
  Conf : Type
  conf : List ε → Conf
  Quorum : Conf → Set ν → Prop
  conf_concat : ∀ l e, isConf e = false → conf (l ++ [e]) = conf l
  meet_self : ∀ {c S S'}, Quorum c S → Quorum c S' → (S ∩ S').Nonempty
  meet_next : ∀ {l e S S'}, isConf e = true → Quorum (conf l) S → Quorum (conf (l ++ [e])) S' →
    (S ∩ S').Nonempty
  meet_sibling : ∀ {l l' e e' S S'}, conf l = conf l' → isConf e = true → isConf e' = true →
    Quorum (conf (l ++ [e])) S → Quorum (conf (l' ++ [e'])) S' → (S ∩ S').Nonempty

/-! ## Prefixes -/

section Prefix

variable {ε : Type} {l l' m : List ε}

theorem take_eq_of_isPrefix (h : l <+: l') {k : ℕ} (hk : k ≤ l.length) : l'.take k = l.take k := by
  obtain ⟨t, rfl⟩ := h
  rw [List.take_append_of_le_length hk]

/-- Of two prefixes of one list, one that is not below the other is above it. -/
theorem isPrefix_of_not (h : l <+: m) (h' : l' <+: m) (hn : ¬ l' <+: l) : l <+: l' :=
  (List.prefix_or_prefix_of_prefix h h').resolve_right hn

end Prefix

namespace Scheme

variable {ν ε : Type} (C : Scheme ν ε)

/-! ## The newest configuration entry of a log -/

/-- The log up to and including its newest configuration entry. -/
def stem (l : List ε) : List ε := l.rdropWhile fun e => !C.isConf e

/-- What lies under the newest configuration entry, again up to a configuration entry. -/
def under (l : List ε) : List ε := C.stem (C.stem l).dropLast

variable {C}

theorem stem_isPrefix (l : List ε) : C.stem l <+: l := List.rdropWhile_prefix _ _

theorem stem_concat (l : List ε) (e : ε) :
    C.stem (l ++ [e]) = if C.isConf e then l ++ [e] else C.stem l := by
  rw [stem, List.rdropWhile_concat]
  cases C.isConf e <;> rfl

theorem conf_stem (l : List ε) : C.conf (C.stem l) = C.conf l := by
  induction l using List.reverseRecOn with
  | nil => rfl
  | append_singleton l e ih =>
    rw [stem_concat]
    cases he : C.isConf e with
    | true => rfl
    | false => rw [if_neg (by simp), ih, C.conf_concat l e he]

/-- A log either has no configuration entry or its stem ends in one. -/
theorem stem_cases (l : List ε) :
    C.stem l = [] ∨ ∃ b e, C.stem l = b ++ [e] ∧ C.isConf e = true := by
  induction l using List.reverseRecOn with
  | nil => exact Or.inl rfl
  | append_singleton l e ih =>
    rw [stem_concat]
    cases he : C.isConf e with
    | true => exact Or.inr ⟨l, e, by rw [if_pos rfl], he⟩
    | false => simpa using ih

/-- Entries beyond a position that are no configuration entries do not belong to the stem. -/
theorem stem_length_le {l : List ε} {c : ℕ}
    (h : ∀ i e, c ≤ i → l[i]? = some e → C.isConf e = false) : (C.stem l).length ≤ c := by
  rcases stem_cases (C := C) l with hnil | ⟨b, e, hb, he⟩
  · rw [hnil]
    exact Nat.zero_le _
  · by_contra hlt
    rw [hb, List.length_append, List.length_singleton] at hlt
    obtain ⟨t, ht⟩ := hb ▸ stem_isPrefix (C := C) l
    have hget : l[b.length]? = some e := by simp [← ht]
    rw [h b.length e (by omega) hget] at he
    cases he

theorem stem_mono {l l' : List ε} (h : l <+: l') : C.stem l <+: C.stem l' := by
  induction l' using List.reverseRecOn with
  | nil => rw [List.prefix_nil.1 h]
  | append_singleton l' e ih =>
    rw [stem_concat]
    rcases List.prefix_concat_iff.1 h with heq | hpre
    · rw [heq, stem_concat]
    · split
      · exact (stem_isPrefix l).trans h
      · exact ih hpre

theorem stem_stem (l : List ε) : C.stem (C.stem l) = C.stem l := List.rdropWhile_idempotent _ _

theorem stem_under (l : List ε) : C.stem (C.under l) = C.under l := stem_stem _

theorem under_of_stem_eq {l b : List ε} {e : ε} (h : C.stem l = b ++ [e]) :
    C.under l = C.stem b := by
  rw [under, h, List.dropLast_concat]

theorem under_of_stem_nil {l : List ε} (h : C.stem l = []) : C.under l = [] := by
  rw [under, h]
  rfl

theorem under_isPrefix (l : List ε) : C.under l <+: l :=
  ((stem_isPrefix _).trans (List.dropLast_prefix _)).trans (stem_isPrefix l)

/-- A stem that is a prefix of a log is a prefix of the log's stem. -/
theorem prefix_stem {u l : List ε} (hu : C.stem u = u) (h : u <+: l) : u <+: C.stem l :=
  hu ▸ stem_mono h

/-! ## Overlap of whole logs -/

/-- A log without configuration entries against any log over the same start. -/
theorem meet_of_stem_nil {l l' : List ε} {S S' : Set ν} (hnil : C.stem l = [])
    (hunder : C.under l' <+: l) (hS : C.Quorum (C.conf l) S) (hS' : C.Quorum (C.conf l') S') :
    (S ∩ S').Nonempty := by
  rw [← conf_stem, hnil] at hS
  rw [← conf_stem l'] at hS'
  rcases stem_cases (C := C) l' with h' | ⟨b', e', h', he'⟩
  · rw [h'] at hS'
    exact C.meet_self hS hS'
  · have hb : C.stem b' = [] := by
      have hpre := prefix_stem (stem_under l') hunder
      rw [under_of_stem_eq h', hnil] at hpre
      exact List.prefix_nil.1 hpre
    rw [h'] at hS'
    refine C.meet_next he' ?_ hS'
    rwa [← conf_stem b', hb]

/-- **Overlap of logs.**  Quorums of two logs meet when each log contains what lies under
the newest configuration entry of the other. -/
theorem meet_of_under {l l' : List ε} {S S' : Set ν} (h : C.under l <+: l')
    (h' : C.under l' <+: l) (hS : C.Quorum (C.conf l) S) (hS' : C.Quorum (C.conf l') S') :
    (S ∩ S').Nonempty := by
  rcases stem_cases (C := C) l with hl | ⟨b, e, hl, he⟩
  · exact meet_of_stem_nil hl h' hS hS'
  rcases stem_cases (C := C) l' with hl' | ⟨b', e', hl', he'⟩
  · rw [Set.inter_comm]
    exact meet_of_stem_nil hl' h hS' hS
  have hU : C.stem b <+: b' ++ [e'] := by
    have := prefix_stem (stem_under l) h
    rwa [under_of_stem_eq hl, hl'] at this
  have hU' : C.stem b' <+: b ++ [e] := by
    have := prefix_stem (stem_under l') h'
    rwa [under_of_stem_eq hl', hl] at this
  rw [← conf_stem l, hl] at hS
  rw [← conf_stem l', hl'] at hS'
  rcases List.prefix_concat_iff.1 hU with heq | hpre
  · -- the stem of `l'` is what lies under `l`: the configurations are adjacent
    rw [Set.inter_comm]
    refine C.meet_next he ?_ hS
    rwa [← conf_stem b, heq]
  rcases List.prefix_concat_iff.1 hU' with heq' | hpre'
  · refine C.meet_next he' ?_ hS'
    rwa [← conf_stem b', heq']
  · -- both were produced from one configuration: they are siblings
    have hbb : C.stem b = C.stem b' :=
      (prefix_stem (stem_stem b) hpre).eq_of_length
        (le_antisymm (prefix_stem (stem_stem b) hpre).length_le
          (prefix_stem (stem_stem b') hpre').length_le)
    refine C.meet_sibling ?_ he he' hS hS'
    rw [← conf_stem b, hbb, conf_stem b']

/-! ## The last term of a log -/

variable (C)

/-- The term of the last entry, `0` for the empty log. -/
def lastTerm (l : List ε) : ℕ := l.getLast?.elim 0 C.termOf

/-- A candidate's log `c` is at least as up to date as `l`. -/
def UpToDate (c l : List ε) : Prop :=
  C.lastTerm l < C.lastTerm c ∨ (C.lastTerm l = C.lastTerm c ∧ l.length ≤ c.length)

variable {C}

@[simp] theorem lastTerm_nil : C.lastTerm [] = 0 := rfl

@[simp] theorem lastTerm_concat (l : List ε) (e : ε) : C.lastTerm (l ++ [e]) = C.termOf e := by
  simp [lastTerm]

theorem upToDate_refl (l : List ε) : C.UpToDate l l := Or.inr ⟨rfl, le_rfl⟩

end Scheme

end Consensus
