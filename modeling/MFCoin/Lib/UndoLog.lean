/-
Module: MFCoin.Lib.UndoLog
Purpose: Steps that each write an undo record, and the records applied back last step
  first. A run forward writes one record a step and keeps any invariant the steps keep.
  When undoing one step, from any state equivalent to where the step ended, reports it
  clean and comes back to a state equivalent to where it began, undoing a whole run does
  the same for the run. Both may be asked only of the steps a run is made of.
Trusted boundary: none
Main exports: UndoLog.forward, UndoLog.backward, UndoLog.forward_length,
  UndoLog.forward_keeps, UndoLog.forward_records, UndoLog.backward_forward
-/
import Mathlib.Data.List.Basic

namespace UndoLog

variable {σ α β : Type*}

/-- The steps left to right; a step may fail, and each returns its undo record. -/
def forward (step : σ → α → Option (β × σ)) : List α → σ → Option (List β × σ)
  | [], s => some ([], s)
  | a :: as, s => do
    let (b, s) ← step s a
    let (bs, s) ← forward step as s
    some (b :: bs, s)

/-- The undo records applied right to left, the last step's first. The flag starts as
given and is cleared by any record that does not apply cleanly. -/
def backward (unstep : σ → α → β → Bool × σ) : List (α × β) → Bool × σ → Bool × σ
  | [], state => state
  | (a, b) :: rest, state =>
    let (clean, s) := backward unstep rest state
    let (ok, s) := unstep s a b
    (clean && ok, s)

section
variable {step : σ → α → Option (β × σ)}

theorem forward_cons {a : α} {as : List α} {s s' : σ} {bs : List β}
    (ran : forward step (a :: as) s = some (bs, s')) :
    ∃ b bs' s₁, bs = b :: bs' ∧ step s a = some (b, s₁) ∧ forward step as s₁ = some (bs', s') := by
  simp only [forward, Option.bind_eq_bind, Option.bind_eq_some_iff, Option.some.injEq] at ran
  obtain ⟨⟨b, s₁⟩, stepped, ⟨bs', s₂⟩, rest, same⟩ := ran
  cases same
  exact ⟨b, bs', s₁, rfl, stepped, rest⟩

/-- A run writes one record a step. -/
theorem forward_length : ∀ {as : List α} {s s' : σ} {bs : List β},
    forward step as s = some (bs, s') → bs.length = as.length
  | [], _, _, _, ran => by
    cases ran
    rfl
  | _ :: _, _, _, _, ran => by
    obtain ⟨_, _, _, rfl, _, rest⟩ := forward_cons ran
    simp [forward_length rest]

section
variable (inv : σ → Prop) (good : α → Prop)

/-- A run of good steps keeps what every good step keeps. -/
theorem forward_keeps (keeps : ∀ s a b s', inv s → good a → step s a = some (b, s') → inv s') :
    ∀ {as : List α} {s s' : σ} {bs : List β}, (∀ a ∈ as, good a) → inv s →
      forward step as s = some (bs, s') → inv s'
  | [], _, _, _, _, holds, ran => by
    cases ran
    exact holds
  | _ :: _, _, _, _, allGood, holds, ran => by
    obtain ⟨_, _, _, _, stepped, rest⟩ := forward_cons ran
    exact forward_keeps keeps (fun a mem => allGood a (List.mem_cons_of_mem _ mem))
      (keeps _ _ _ _ holds (allGood _ List.mem_cons_self) stepped) rest

/-- Every record of a run of good steps has what every good step gives its record. -/
theorem forward_records (keeps : ∀ s a b s', inv s → good a → step s a = some (b, s') → inv s')
    {record : β → Prop} (writes : ∀ s a b s', inv s → good a → step s a = some (b, s') → record b) :
    ∀ {as : List α} {s s' : σ} {bs : List β}, (∀ a ∈ as, good a) → inv s →
      forward step as s = some (bs, s') → ∀ b ∈ bs, record b
  | [], _, _, _, _, _, ran => by
    cases ran
    exact fun _ => nofun
  | _ :: _, _, _, _, allGood, holds, ran => by
    obtain ⟨b, _, _, rfl, stepped, rest⟩ := forward_cons ran
    have first := allGood _ List.mem_cons_self
    intro b' mem
    rcases List.mem_cons.mp mem with rfl | later
    · exact writes _ _ _ _ holds first stepped
    · exact forward_records keeps writes (fun a mem => allGood a (List.mem_cons_of_mem _ mem))
        (keeps _ _ _ _ holds first stepped) rest b' later

end

end

section
variable {step : σ → α → Option (β × σ)} {unstep : σ → α → β → Bool × σ}
  (inv : σ → Prop) (good : α → Prop) (equiv : σ → σ → Prop)

/-- Undoing a run of good steps, last step first: from any state equivalent to the run's
end, every record applies cleanly and the state comes back equivalent to the run's start. -/
theorem backward_forward (keeps : ∀ s a b s', inv s → good a → step s a = some (b, s') → inv s')
    (undoes : ∀ s a b s' t, inv s → good a → step s a = some (b, s') → equiv t s' →
      ∃ t', unstep t a b = (true, t') ∧ equiv t' s) :
    ∀ {as : List α} {s s' : σ} {bs : List β}, (∀ a ∈ as, good a) → inv s →
      forward step as s = some (bs, s') →
      ∀ clean t, equiv t s' → ∃ t', backward unstep (as.zip bs) (clean, t) = (clean, t') ∧ equiv t' s
  | [], _, _, _, _, _, ran, clean, t, same => by
    cases ran
    exact ⟨t, rfl, same⟩
  | a :: as, s, s', _, allGood, holds, ran, clean, t, same => by
    obtain ⟨b, bs, s₁, rfl, stepped, rest⟩ := forward_cons ran
    have first := allGood a List.mem_cons_self
    -- the later steps are undone first, back to a state equivalent to `s₁`
    obtain ⟨t₁, undoneRest, same₁⟩ :=
      backward_forward keeps undoes (fun a mem => allGood a (List.mem_cons_of_mem _ mem))
        (keeps s a b s₁ holds first stepped) rest clean t same
    obtain ⟨t', undone, same'⟩ := undoes s a b s₁ t₁ holds first stepped same₁
    refine ⟨t', ?_, same'⟩
    simp only [List.zip_cons_cons, backward, undoneRest, undone, Bool.and_true]

end

end UndoLog
