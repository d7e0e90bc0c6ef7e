/-
Module: MFCoin.Lib.ExceptRun
Purpose: Reading a successful run of an `Except` computation backwards: a bind that
  succeeded had a first step that succeeded, a mapped error changes no success, and a
  computation seen through `toOption` succeeded. Proofs about `do` blocks peel them apart
  with these, one step at a time, instead of unfolding the monad; a block run on known
  reads is evaluated forwards with `ok_bind`. A guard that fails with a message passes exactly
  when its condition does not hold. Forwards too, a loop in `Option` over a list
  succeeds when each step succeeds from the invariant of the elements done into the invariant
  of one more; backwards, a loop in `Except` that returned kept its invariant at every step.
Trusted boundary: none
Main exports: Except.bind_eq_ok, Except.mapError_eq_ok, Except.ok_bind, Except.toOption_eq_some,
  Except.unit_bind_eq_ok, Except.failIf, Except.failIf_bind_eq_ok,
  List.foldlM_some_of_step, List.foldlM_except_forall
-/
import Mathlib.Logic.Basic

namespace Except

variable {ε ε' α β : Type}

/-- A sequenced computation succeeds exactly when its first step does and the rest
succeeds on that step's result. -/
@[simp] theorem bind_eq_ok {x : Except ε α} {f : α → Except ε β} {b : β} :
    x >>= f = .ok b ↔ ∃ a, x = .ok a ∧ f a = .ok b := by
  cases x with
  | error e => simp [bind, Except.bind]
  | ok a => simp [bind, Except.bind]

/-- Renaming the errors changes no success. -/
@[simp] theorem mapError_eq_ok {x : Except ε α} {f : ε → ε'} {a : α} :
    x.mapError f = .ok a ↔ x = .ok a := by
  cases x with
  | error e =>
    constructor <;> intro failed <;> cases failed
  | ok b =>
    constructor <;> intro same <;> cases same <;> rfl

/-- `pure` succeeds with its value and nothing else. -/
@[simp] theorem pure_eq_ok {a b : α} : (pure a : Except ε α) = .ok b ↔ a = b := by
  simp [pure, Except.pure]

/-- A computation that starts from a success goes on with its value; proofs that evaluate a
`do` block on known reads use it forwards. -/
theorem ok_bind {a : α} {f : α → Except ε β} : (Except.ok a >>= f) = f a := rfl

theorem toOption_eq_some {x : Except ε α} {a : α} (h : x.toOption = some a) : x = .ok a := by
  cases x <;> simp_all [Except.toOption]

/-- A guard: fail with msg when bad holds, go on otherwise (the C idiom
if (bad) return error(msg)). -/
def failIf (bad : Prop) [Decidable bad] (msg : ε) : Except ε Unit := if bad then .error msg else .ok ()

@[simp] theorem failIf_eq_ok {bad : Prop} [Decidable bad] {msg : ε} {u : Unit} :
    failIf bad msg = .ok u ↔ ¬bad := by
  unfold failIf
  split <;> simp_all

/-- A check that returns nothing, followed by the rest: both succeed. -/
theorem unit_bind_eq_ok {x : Except ε Unit} {f : Unit → Except ε β} {b : β} :
    x >>= f = .ok b ↔ x = .ok () ∧ f () = .ok b := by
  rw [bind_eq_ok]
  constructor
  · rintro ⟨u, passed, rest⟩
    exact ⟨passed, rest⟩
  · rintro ⟨passed, rest⟩
    exact ⟨(), passed, rest⟩

/-- A block that goes on past a guard succeeds when the guard does not fire and the rest
succeeds. -/
@[simp] theorem failIf_bind_eq_ok {bad : Prop} [Decidable bad] {msg : ε} {f : Unit → Except ε β}
    {b : β} : failIf bad msg >>= f = .ok b ↔ ¬bad ∧ f () = .ok b := by
  rw [unit_bind_eq_ok, failIf_eq_ok]

end Except

namespace List

/-- A loop in `Option` whose step takes a state of the invariant of the first k elements to a
state of the invariant of k + 1 succeeds, in the invariant of all of them. -/
theorem foldlM_some_of_step {α β : Type} (step : β → α → Option β) (Inv : Nat → β → Prop)
    (xs : List α) (next : ∀ k b (lt : k < xs.length), Inv k b → ∃ b', step b xs[k] = some b' ∧ Inv (k + 1) b') :
    ∀ b, Inv 0 b → ∃ b', xs.foldlM step b = some b' ∧ Inv xs.length b' := by
  -- the loop over the elements from k on, by induction on how many are left
  suffices rest : ∀ d k b, k + d = xs.length → Inv k b →
      ∃ b', (xs.drop k).foldlM step b = some b' ∧ Inv xs.length b' by
    intro b start
    simpa using rest xs.length 0 b (Nat.zero_add _) start
  intro d
  induction d with
  | zero =>
    intro k b ends inv
    refine ⟨b, ?_, ends ▸ inv⟩
    rw [List.drop_of_length_le (by omega), List.foldlM_nil]
    rfl
  | succ d ih =>
    intro k b ends inv
    obtain ⟨b', stepped, inv'⟩ := next k b (by omega) inv
    rw [List.drop_eq_getElem_cons (by omega), List.foldlM_cons, stepped]
    exact ih (k + 1) b' (by omega) inv'

/-- A loop in `Except` that returned: each step it took kept the invariant and, for its
element, the condition the step checks. -/
theorem foldlM_except_forall {ε α β : Type} (step : β → α → Except ε β) (Inv : β → Prop)
    (P : α → Prop) (xs : List α)
    (keeps : ∀ b x b', x ∈ xs → Inv b → step b x = .ok b' → Inv b' ∧ P x) :
    ∀ b b', Inv b → xs.foldlM step b = .ok b' → Inv b' ∧ ∀ x ∈ xs, P x := by
  induction xs with
  | nil =>
    intro b b' inv ran
    cases ran
    exact ⟨inv, fun _ mem => absurd mem List.not_mem_nil⟩
  | cons x rest ih =>
    intro b b' inv ran
    rw [List.foldlM_cons, Except.bind_eq_ok] at ran
    obtain ⟨c, stepped, ranRest⟩ := ran
    obtain ⟨invC, checked⟩ := keeps b x c List.mem_cons_self inv stepped
    obtain ⟨inv', checkedRest⟩ :=
      ih (fun b y b' mem => keeps b y b' (List.mem_cons_of_mem x mem)) c b' invC ranRest
    exact ⟨inv', List.forall_mem_cons.mpr ⟨checked, checkedRest⟩⟩

end List
