/-
Module: MFCoin.Lib.AdjacentSwap
Purpose: Adjacent transpositions of a list ordered by a key into a linear order: the
  descents they repair, the inversion count they lower by exactly one, and the
  sortedness of a list with no descent left. These are the facts behind any sort that
  only exchanges neighbours; nothing here depends on what the list holds.
Trusted boundary: none
Main exports: swapAdjacent, DescentAt, inversions, inversions_swapAdjacent,
  descentAt_swapAdjacent, pairwise_of_no_descent, map_eq_of_perm_of_pairwise
-/
import Mathlib.Data.List.Lex
import Mathlib.Data.List.Sort

namespace AdjacentSwap

variable {α β : Type*}

/-- Exchange the elements at positions `p` and `p + 1`. A list too short for the pair is
left as it is. -/
def swapAdjacent : List α → Nat → List α
  | [], _ => []
  | [a], _ => [a]
  | a :: b :: rest, 0 => b :: a :: rest
  | a :: b :: rest, p + 1 => a :: swapAdjacent (b :: rest) p

theorem swapAdjacent_perm : ∀ (l : List α) (p : Nat), (swapAdjacent l p).Perm l
  | [], _ => List.Perm.refl _
  | [_], _ => List.Perm.refl _
  | a :: b :: rest, 0 => List.Perm.swap a b rest
  | a :: b :: rest, p + 1 => (swapAdjacent_perm (b :: rest) p).cons a

@[simp] theorem length_swapAdjacent (l : List α) (p : Nat) :
    (swapAdjacent l p).length = l.length :=
  (swapAdjacent_perm l p).length_eq

/-- Reading the swapped list: positions `p` and `p + 1` trade places, the others stay. -/
theorem getElem?_swapAdjacent :
    ∀ {l : List α} {p : Nat}, p + 1 < l.length → ∀ i : Nat,
      (swapAdjacent l p)[i]? =
        if i = p then l[p + 1]? else if i = p + 1 then l[p]? else l[i]?
  | [], _, bound, _ => by simp at bound
  | [_], _, bound, _ => by simp at bound
  | a :: b :: rest, 0, _, i => by
      rcases i with _ | _ | i <;> simp [swapAdjacent]
  | a :: b :: rest, p + 1, bound, i => by
      have inner := getElem?_swapAdjacent (l := b :: rest) (p := p) (by simpa using bound)
      rcases i with _ | i
      · simp [swapAdjacent]
      · simp [swapAdjacent, inner i]

section Key

variable [LinearOrder β] (key : α → β)

/-- An adjacent descent: the element at `p + 1` has a strictly smaller key than the
element at `p`. -/
def DescentAt (l : List α) (p : Nat) : Prop :=
  ∃ a b, l[p]? = some a ∧ l[p + 1]? = some b ∧ key b < key a

/-- Number of pairs `i < j` whose keys are strictly out of order. -/
def inversions : List α → Nat
  | [] => 0
  | a :: rest => rest.countP (fun b => decide (key b < key a)) + inversions rest

@[simp] theorem inversions_nil : inversions key ([] : List α) = 0 := rfl

@[simp] theorem inversions_cons (a : α) (rest : List α) :
    inversions key (a :: rest) =
      rest.countP (fun b => decide (key b < key a)) + inversions key rest := rfl

/-- Exchanging a descending neighbour pair removes exactly one inversion: the pair
itself. Every other pair keeps its relative order. -/
theorem inversions_swapAdjacent :
    ∀ {l : List α} {p : Nat}, DescentAt key l p →
      inversions key (swapAdjacent l p) + 1 = inversions key l
  | [], _, ⟨_, _, hx, _, _⟩ => by simp at hx
  | [_], _, ⟨_, _, _, hy, _⟩ => by simp at hy
  | a :: b :: rest, 0, ⟨x, y, hx, hy, descent⟩ => by
      simp only [List.getElem?_cons_zero, List.getElem?_cons_succ, Option.some.injEq]
        at hx hy
      subst hx hy
      have ascending : ¬ key a < key b := not_lt.mpr descent.le
      simp [swapAdjacent, descent, ascending]
      omega
  | a :: b :: rest, p + 1, ⟨x, y, hx, hy, descent⟩ => by
      have inner : DescentAt key (b :: rest) p :=
        ⟨x, y, by simpa using hx, by simpa using hy, descent⟩
      have sameCount :=
        (swapAdjacent_perm (b :: rest) p).countP_eq (fun c => decide (key c < key a))
      have shorter := inversions_swapAdjacent inner
      rw [swapAdjacent, inversions_cons, inversions_cons key a (b :: rest), sameCount]
      omega

theorem DescentAt.succ_lt_length {l : List α} {p : Nat} (descent : DescentAt key l p) :
    p + 1 < l.length := by
  obtain ⟨_, _, _, hy, _⟩ := descent
  exact (List.getElem?_eq_some_iff.mp hy).1

/-- After a swap at a descent `p`, a descent can only sit next to `p` (at `p - 1` or
`p + 1`) or be one the list already had away from `p`. -/
theorem descentAt_swapAdjacent {l : List α} {p j : Nat} (descent : DescentAt key l p)
    (after : DescentAt key (swapAdjacent l p) j) :
    j + 1 = p ∨ j = p + 1 ∨ (j ≠ p ∧ DescentAt key l j) := by
  have bound := descent.succ_lt_length key
  obtain ⟨x, y, hx, hy, swapped⟩ := after
  rw [getElem?_swapAdjacent bound] at hx hy
  by_cases atPair : j = p
  · -- the repaired pair itself now ascends
    subst atPair
    obtain ⟨a, b, ha, hb, down⟩ := descent
    simp only [↓reduceIte, hb, Option.some.injEq, Nat.succ_ne_self, ha] at hx hy
    subst hx hy
    exact absurd down (not_lt.mpr swapped.le)
  · by_cases below : j + 1 = p
    · exact Or.inl below
    · by_cases above : j = p + 1
      · exact Or.inr (Or.inl above)
      · have shifted : j + 1 ≠ p + 1 := fun h => atPair (by omega)
        simp only [atPair, above, below, shifted, ↓reduceIte] at hx hy
        exact Or.inr (Or.inr ⟨atPair, x, y, hx, hy, swapped⟩)

/-- A list without adjacent descents is sorted by key. -/
theorem pairwise_of_no_descent :
    ∀ {l : List α}, (∀ j, ¬ DescentAt key l j) → l.Pairwise (fun a b => key a ≤ key b)
  | [], _ => List.Pairwise.nil
  | [_], _ => List.pairwise_singleton _ _
  | a :: b :: rest, noDescent => by
      -- go through `IsChain`: neighbours suffice because `≤` on keys is transitive
      have : Trans (fun a b : α => key a ≤ key b) (fun a b => key a ≤ key b)
          (fun a b => key a ≤ key b) := ⟨le_trans⟩
      have head : key a ≤ key b := not_lt.mp fun down => noDescent 0 ⟨a, b, rfl, rfl, down⟩
      have tail := pairwise_of_no_descent (l := b :: rest) fun j ⟨x, y, hx, hy, down⟩ =>
        noDescent (j + 1) ⟨x, y, by simpa using hx, by simpa using hy, down⟩
      rw [← List.isChain_iff_pairwise] at tail ⊢
      exact List.IsChain.cons_cons head tail

/-- Two key-sorted permutations of one list agree on their keys: a sort by a key is
unique up to elements with equal keys. -/
theorem map_eq_of_perm_of_pairwise {l u w : List α} (hu : u.Perm l) (hw : w.Perm l)
    (sortedU : u.Pairwise (fun a b => key a ≤ key b))
    (sortedW : w.Pairwise (fun a b => key a ≤ key b)) :
    u.map key = w.map key := by
  have antisymmetric : ∀ a b, a ∈ u.map key → b ∈ w.map key → a ≤ b → b ≤ a → a = b :=
    fun a b _ _ hab hba => le_antisymm hab hba
  exact List.Perm.eq_of_pairwise antisymmetric (List.pairwise_map.mpr sortedU)
    (List.pairwise_map.mpr sortedW) ((hu.trans hw.symm).map key)

end Key

end AdjacentSwap
