/-
Module: MFCoin.Lib.KeyedFold
Purpose: Loops over the entries of an association list with distinct keys, whose step
  changes what the state reads at the entry's key and nothing else. Read at any key, the
  result is one step's effect at that key on the initial state, or the initial state where
  the list has no entry. A step that may fail succeeds throughout when it succeeds on
  every entry against the initial state.
Trusted boundary: none
Main exports: List.foldlM_keyed, List.foldl_keyed
-/
import Mathlib.Data.List.Sigma

namespace List

variable {α σ δ ε : Type*} {β : α → Type*} [DecidableEq α]

section
variable (read : σ → α → δ) (result : (a : α) → β a → δ → δ)

/-- A failing loop over distinct keys, read key by key. -/
theorem foldlM_keyed (step : σ → (a : α) → β a → Except ε σ)
    (succeeds : (a : α) → β a → δ → Prop)
    (writes : ∀ s a b s', step s a b = .ok s' →
      read s' a = result a b (read s a) ∧ ∀ u, u ≠ a → read s' u = read s u)
    (progress : ∀ s a b, succeeds a b (read s a) → ∃ s', step s a b = .ok s') :
    ∀ (l : List (Sigma β)), l.NodupKeys → ∀ s, (∀ x ∈ l, succeeds x.1 x.2 (read s x.1)) →
      ∃ s', l.foldlM (fun s x => step s x.1 x.2) s = .ok s' ∧
        ∀ u, read s' u = (l.dlookup u).elim (read s u) fun b => result u b (read s u)
  | [], _, s, _ => ⟨s, rfl, fun _ => rfl⟩
  | ⟨k, b⟩ :: l, nodup, s, allSucceed => by
    obtain ⟨fresh, nodupRest⟩ := nodupKeys_cons.mp nodup
    obtain ⟨s₁, stepped⟩ := progress s k b (allSucceed ⟨k, b⟩ mem_cons_self)
    obtain ⟨atKey, elsewhere⟩ := writes s k b s₁ stepped
    -- the later entries have other keys, so the first step left what they read
    have restSucceed : ∀ x ∈ l, succeeds x.1 x.2 (read s₁ x.1) := by
      intro x mem
      have other : x.1 ≠ k := by
        intro same
        have key : x.1 ∈ l.keys := mem_keys_of_mem mem
        rw [same] at key
        exact fresh key
      rw [elsewhere x.1 other]
      exact allSucceed x (mem_cons_of_mem _ mem)
    obtain ⟨s', ran, reads⟩ := foldlM_keyed step succeeds writes progress l nodupRest s₁ restSucceed
    refine ⟨s', by rw [foldlM_cons, stepped]; exact ran, fun u => ?_⟩
    by_cases here : u = k
    · subst here
      rw [reads, dlookup_eq_none.mpr fresh, dlookup_cons_eq]
      exact atKey
    · rw [reads, dlookup_cons_ne l ⟨k, b⟩ here, elsewhere u here]

/-- A loop that cannot fail, read key by key: the failing loop's case with a step that
always succeeds. -/
theorem foldl_keyed (step : σ → (a : α) → β a → σ)
    (writes : ∀ s a b,
      read (step s a b) a = result a b (read s a) ∧ ∀ u, u ≠ a → read (step s a b) u = read s u)
    (l : List (Sigma β)) (nodup : l.NodupKeys) (s : σ) (u : α) :
    read (l.foldl (fun s x => step s x.1 x.2) s) u =
      (l.dlookup u).elim (read s u) fun b => result u b (read s u) := by
  obtain ⟨s', ran, reads⟩ := foldlM_keyed (ε := Empty) read result
    (fun s a b => .ok (step s a b)) (fun _ _ _ => True)
    (fun s a b s' stepped => by cases stepped; exact writes s a b)
    (fun s a b _ => ⟨step s a b, rfl⟩) l nodup s (fun _ _ => trivial)
  have pureRun : l.foldlM (fun s x => (pure (step s x.1 x.2) : Except Empty σ)) s =
      pure (l.foldl (fun s x => step s x.1 x.2) s) := foldlM_pure
  have same : l.foldl (fun s x => step s x.1 x.2) s = s' := by
    have := pureRun.symm.trans ran
    cases this
    rfl
  rw [same, reads]

end

end List
