/-
Module: MFCoin.Lib.MerkleTree
Purpose: Merkle trees built level by level over the leaves f 0, ..., f (n - 1). A level pairs
  its nodes from the left; when its width is odd, its last node goes up alone through odd
  (hashed with itself in Bitcoin's tree, carried up unchanged in an ordered tree that does not
  pad). Node j of level l covers the leaves from j * 2 ^ l on; when all 2 ^ l of them exist it
  is the complete subtree over them, whatever odd does. The width of a level is the ceiling
  of n / 2 ^ l. Besides the tree, the facts about a binary counter k + 1 that a tree built
  one leaf at a time rests on: which bits the increment clears and which stay.
Trusted boundary: none
Main exports: MerkleTree.width, MerkleTree.node, MerkleTree.subtree, MerkleTree.lt_width_iff,
  MerkleTree.width_eq, MerkleTree.node_eq_subtree, MerkleTree.node_last_succ_odd,
  MerkleTree.node_last_succ_even
-/
import Mathlib.Data.Nat.Bitwise
import Mathlib.Data.Nat.Log
import Mathlib.Order.Basic
import Mathlib.Tactic.Linarith
import Mathlib.Tactic.Ring

namespace MerkleTree

variable {D : Type} (hash : D → D → D) (odd : D → D) (f : Nat → D)

/-- The number of nodes of level l over n leaves: the pairs of the level below and its odd
last node. -/
def width (n : Nat) : Nat → Nat
  | 0 => n
  | l + 1 => (width n l + 1) / 2

/-- Node j of level l: the leaf f j at level 0; above it the pair of nodes 2 j and 2 j + 1 of
the level below, or odd of node 2 j when that is the last node of a level of odd width. -/
def node (n : Nat) : Nat → Nat → D
  | 0, j => f j
  | l + 1, j =>
    if 2 * j + 1 < width n l then hash (node n l (2 * j)) (node n l (2 * j + 1))
    else odd (node n l (2 * j))

/-- The complete subtree over the 2 ^ l leaves from s. -/
def subtree : Nat → Nat → D
  | 0, s => f s
  | l + 1, s => hash (subtree l s) (subtree l (s + 2 ^ l))

/-- Node j exists at level l exactly when its first leaf does. -/
theorem lt_width_iff (n : Nat) : ∀ (l j : Nat), j < width n l ↔ j * 2 ^ l < n
  | 0, j => by simp [width]
  | l + 1, j => by
    have below := lt_width_iff n l (2 * j)
    have pairs : j < (width n l + 1) / 2 ↔ 2 * j < width n l := by omega
    rw [width, pairs, below, pow_succ, show j * (2 ^ l * 2) = 2 * j * 2 ^ l by ring]

/-- The width of a level is the ceiling of n / 2 ^ l. -/
theorem width_eq {n : Nat} (pos : 0 < n) (l : Nat) : width n l = (n - 1) / 2 ^ l + 1 := by
  refine eq_of_forall_lt_iff fun j => ?_
  rw [lt_width_iff, Nat.lt_succ_iff, Nat.le_div_iff_mul_le (Nat.two_pow_pos l)]
  omega

theorem width_pos {n : Nat} (pos : 0 < n) (l : Nat) : 0 < width n l := by
  rw [width_eq pos]
  exact Nat.succ_pos _

/-- The top level is the first whose width is one. -/
theorem width_le_one_iff {n : Nat} (pos : 0 < n) (l : Nat) : width n l ≤ 1 ↔ n ≤ 2 ^ l := by
  have above := lt_width_iff n l 1
  have := width_pos pos l
  rw [one_mul] at above
  omega

/-- ... the level Nat.clog 2 n, the height of the tree. -/
theorem width_le_one_iff_clog_le {n : Nat} (pos : 0 < n) (l : Nat) :
    width n l ≤ 1 ↔ Nat.clog 2 n ≤ l := by
  rw [width_le_one_iff pos, Nat.clog_le_iff_le_pow (by norm_num)]

/-- A node over leaves that all exist is the complete subtree over them. -/
theorem node_eq_subtree (n : Nat) : ∀ (l j : Nat), (j + 1) * 2 ^ l ≤ n →
    node hash odd f n l j = subtree hash f l (j * 2 ^ l)
  | 0, j, _ => by simp [node, subtree]
  | l + 1, j, complete => by
    have pow : (j + 1) * 2 ^ (l + 1) = (2 * j + 1 + 1) * 2 ^ l := by ring
    have paired : 2 * j + 1 < width n l := by
      rw [lt_width_iff]
      have := Nat.two_pow_pos l
      nlinarith
    rw [node, if_pos paired, node_eq_subtree n l (2 * j) (by nlinarith),
      node_eq_subtree n l (2 * j + 1) (by omega), subtree]
    congr 2 <;> ring

/-- Over a level of odd width the last node goes up alone. -/
theorem node_last_succ_odd (n l : Nat) (oddWidth : width n l % 2 = 1) :
    node hash odd f n (l + 1) (width n (l + 1) - 1) = odd (node hash odd f n l (width n l - 1)) := by
  have last : 2 * (width n (l + 1) - 1) = width n l - 1 := by
    simp only [width]
    omega
  rw [node, if_neg (by omega), last]

/-- Over a level of even width the last node pairs the last two. -/
theorem node_last_succ_even (n l : Nat) (evenWidth : width n l % 2 = 0) (pos : 0 < width n l) :
    node hash odd f n (l + 1) (width n (l + 1) - 1) =
      hash (node hash odd f n l (width n l - 2)) (node hash odd f n l (width n l - 1)) := by
  have last : 2 * (width n (l + 1) - 1) = width n l - 2 := by
    simp only [width]
    omega
  rw [node, if_pos (by omega), last, show width n l - 2 + 1 = width n l - 1 by omega]

/-- Two sibling complete subtrees among the first k leaves have equal hashes. -/
def SiblingsEqual (k : Nat) : Prop :=
  ∃ l j, (2 * j + 2) * 2 ^ l ≤ k ∧
    subtree hash f l (2 * j * 2 ^ l) = subtree hash f l ((2 * j + 1) * 2 ^ l)

/-- One more leaf completes the sibling pairs that end at it: those of the levels i where
k + 1 is a multiple of 2 ^ (i + 1). -/
theorem siblingsEqual_succ (k : Nat) :
    SiblingsEqual hash f (k + 1) ↔ SiblingsEqual hash f k ∨
      ∃ i, (k + 1) % 2 ^ (i + 1) = 0 ∧
        subtree hash f i (k + 1 - 2 ^ (i + 1)) = subtree hash f i (k + 1 - 2 ^ i) := by
  constructor
  · rintro ⟨l, j, within, equal⟩
    by_cases before : (2 * j + 2) * 2 ^ l ≤ k
    · exact .inl ⟨l, j, before, equal⟩
    · -- the pair ends exactly at k + 1
      have ends : k + 1 = (2 * j + 2) * 2 ^ l := by omega
      refine .inr ⟨l, ?_, ?_⟩
      · rw [ends, show (2 * j + 2) * 2 ^ l = (j + 1) * 2 ^ (l + 1) by ring, Nat.mul_mod_left]
      · rw [Nat.sub_eq_of_eq_add (show k + 1 = 2 * j * 2 ^ l + 2 ^ (l + 1) by rw [ends]; ring),
          Nat.sub_eq_of_eq_add (show k + 1 = (2 * j + 1) * 2 ^ l + 2 ^ l by rw [ends]; ring)]
        exact equal
  · rintro (⟨l, j, within, equal⟩ | ⟨i, ends, equal⟩)
    · exact ⟨l, j, by omega, equal⟩
    · obtain ⟨m, blocks⟩ := Nat.dvd_of_mod_eq_zero ends
      obtain ⟨t, rfl⟩ : ∃ t, m = t + 1 := ⟨m - 1, by
        rcases m with _ | m
        · simp at blocks
        · rfl⟩
      refine ⟨i, t, le_of_eq ?_, ?_⟩
      · rw [blocks]
        ring
      · rw [Nat.sub_eq_of_eq_add (show k + 1 = 2 * t * 2 ^ i + 2 ^ (i + 1) by rw [blocks]; ring),
          Nat.sub_eq_of_eq_add (show k + 1 = (2 * t + 1) * 2 ^ i + 2 ^ i by rw [blocks]; ring)]
          at equal
        exact equal

/-! ### Widths against the bits of n -/

section Widths

variable {n l : Nat}

/-- Over a multiple of 2 ^ l the width of level l is the quotient. -/
theorem width_eq_div (pos : 0 < n) (multiple : n % 2 ^ l = 0) : width n l = n / 2 ^ l := by
  rw [width_eq pos]
  have := Nat.succ_div (a := n - 1) (b := 2 ^ l)
  rw [show n - 1 + 1 = n by omega, if_pos (Nat.dvd_of_mod_eq_zero multiple)] at this
  omega

/-- Otherwise the last node of level l is partial. -/
theorem width_eq_div_succ (notMultiple : n % 2 ^ l ≠ 0) : width n l = n / 2 ^ l + 1 := by
  have pos : 0 < n := by
    rcases Nat.eq_zero_or_pos n with rfl | pos
    · simp at notMultiple
    · exact pos
  rw [width_eq pos]
  have := Nat.succ_div (a := n - 1) (b := 2 ^ l)
  rw [show n - 1 + 1 = n by omega, if_neg (fun dvd => notMultiple (Nat.mod_eq_zero_of_dvd dvd))] at this
  omega

/-- Over a level of even width whose last node is partial, the node before the last is the
complete block of 2 ^ l that the bit l of n stands for. -/
theorem block_of_even_width (notMultiple : n % 2 ^ l ≠ 0) (evenWidth : width n l % 2 = 0) :
    n.testBit l = true ∧ n / 2 ^ (l + 1) * 2 ^ (l + 1) = (width n l - 2) * 2 ^ l := by
  rw [width_eq_div_succ notMultiple] at evenWidth ⊢
  refine ⟨?_, ?_⟩
  · rw [Nat.testBit_eq_decide_div_mod_eq, decide_eq_true_iff]
    omega
  · rw [pow_succ, ← Nat.div_div_eq_div_mul]
    generalize n / 2 ^ l = q at evenWidth ⊢
    have halves : q / 2 * 2 = q + 1 - 2 := by omega
    rw [← halves]
    ring

/-- Counting a missing twin of the odd last node: the count reaches the next level. -/
theorem width_succ_of_odd (oddWidth : width n l % 2 = 1) :
    width n l * 2 ^ l + 2 ^ l = width n (l + 1) * 2 ^ (l + 1) := by
  have halves : (width n l + 1) / 2 * 2 = width n l + 1 := by omega
  rw [width, pow_succ, ← Nat.mul_assoc, Nat.mul_right_comm, halves]
  ring

theorem width_succ_of_even (evenWidth : width n l % 2 = 0) :
    width n l * 2 ^ l = width n (l + 1) * 2 ^ (l + 1) := by
  have halves : (width n l + 1) / 2 * 2 = width n l := by omega
  rw [width, pow_succ, ← Nat.mul_assoc, Nat.mul_right_comm, halves]

/-- The last node of a level starts before the last leaf. -/
theorem width_mul_lt (pos : 0 < n) (l : Nat) : width n l * 2 ^ l < n + 2 ^ l := by
  have last := (lt_width_iff n l (width n l - 1)).mp (by have := width_pos pos l; omega)
  have whole : (width n l - 1) * 2 ^ l + 2 ^ l = width n l * 2 ^ l := by
    rw [Nat.sub_one_mul, Nat.sub_add_cancel (Nat.le_mul_of_pos_left _ (width_pos pos l))]
  omega

end Widths

/-! ### A binary counter -/

section Counter

variable {k i : Nat}

/-- When the bits of k + 1 below i are clear, k counts one unit of 2 ^ i less. -/
theorem div_of_low (low : (k + 1) % 2 ^ i = 0) :
    (k + 1) / 2 ^ i * 2 ^ i = k + 1 ∧ k / 2 ^ i + 1 = (k + 1) / 2 ^ i := by
  have dvd := Nat.dvd_of_mod_eq_zero low
  refine ⟨Nat.div_mul_cancel dvd, ?_⟩
  rw [Nat.succ_div, if_pos dvd]

/-- A clear bit of k + 1 above clear bits: the carry passed it, so the bit of k is set and k
ends the block of 2 ^ (i + 1) before k + 1. -/
theorem carry_clear (low : (k + 1) % 2 ^ i = 0) (clear : (k + 1).testBit i = false) :
    (k + 1) % 2 ^ (i + 1) = 0 ∧ k.testBit i = true ∧
      k / 2 ^ (i + 1) * 2 ^ (i + 1) + 2 ^ (i + 1) = k + 1 := by
  obtain ⟨whole, pred⟩ := div_of_low low
  have even : (k + 1) / 2 ^ i % 2 = 0 := by
    rw [Nat.testBit_eq_decide_div_mod_eq] at clear
    simp only [decide_eq_false_iff_not] at clear
    omega
  have pos : 0 < (k + 1) / 2 ^ i := Nat.div_pos (Nat.le_of_dvd (by omega)
    (Nat.dvd_of_mod_eq_zero low)) (Nat.two_pow_pos i)
  refine ⟨?_, ?_, ?_⟩
  · rw [Nat.mod_pow_succ, low, even, Nat.mul_zero]
  · rw [Nat.testBit_eq_decide_div_mod_eq, decide_eq_true_iff]
    omega
  · rw [pow_succ, ← Nat.div_div_eq_div_mul]
    generalize (k + 1) / 2 ^ i = q at whole pred even pos
    have halves : (q - 1) / 2 * 2 + 2 = q := by omega
    calc k / 2 ^ i / 2 * (2 ^ i * 2) + 2 ^ i * 2 = ((q - 1) / 2 * 2 + 2) * 2 ^ i := by
          rw [show k / 2 ^ i = q - 1 by omega]
          ring
      _ = k + 1 := by rw [halves, whole]

/-- The lowest set bit i of k + 1: k + 1 stores a block of 2 ^ i after the blocks of
2 ^ (i + 1) before it, the bit of k was clear, and the bits above i do not change. -/
theorem carry_set (low : (k + 1) % 2 ^ i = 0) (set : (k + 1).testBit i = true) :
    (k + 1) / 2 ^ (i + 1) * 2 ^ (i + 1) + 2 ^ i = k + 1 ∧ k.testBit i = false ∧
      ∀ l, i < l → (k + 1) / 2 ^ l = k / 2 ^ l := by
  obtain ⟨whole, pred⟩ := div_of_low low
  have oddq : (k + 1) / 2 ^ i % 2 = 1 := by
    rw [Nat.testBit_eq_decide_div_mod_eq, decide_eq_true_iff] at set
    exact set
  refine ⟨?_, ?_, ?_⟩
  · rw [pow_succ, ← Nat.div_div_eq_div_mul]
    generalize (k + 1) / 2 ^ i = q at whole oddq
    have halves : q / 2 * 2 + 1 = q := by omega
    calc q / 2 * (2 ^ i * 2) + 2 ^ i = (q / 2 * 2 + 1) * 2 ^ i := by ring
      _ = k + 1 := by rw [halves, whole]
  · rw [Nat.testBit_eq_decide_div_mod_eq, decide_eq_false_iff_not]
    omega
  · intro l above
    rw [Nat.succ_div, if_neg, Nat.add_zero]
    intro dvd
    -- a block of 2 ^ (i + 1) ending at k + 1 would make the bit i of k + 1 clear
    obtain ⟨t, blocks⟩ := (Nat.pow_dvd_pow 2 above).trans dvd
    have : (k + 1) / 2 ^ i = 2 * t := by
      rw [blocks, pow_succ, Nat.mul_assoc, Nat.mul_div_cancel_left _ (Nat.two_pow_pos i)]
    omega

/-- Bits of n all clear below l: n is a multiple of 2 ^ l. -/
theorem mod_two_pow_eq_zero {n l : Nat} (below : ∀ j < l, n.testBit j = false) :
    n % 2 ^ l = 0 :=
  Nat.eq_of_testBit_eq fun j => by
    simp only [Nat.testBit_mod_two_pow, Nat.zero_testBit, Bool.and_eq_false_iff,
      decide_eq_false_iff_not]
    by_cases lt : j < l
    · exact .inr (below j lt)
    · exact .inl lt

/-- The lowest set bit l0 of n, as one fact about n: n % 2 ^ (l0 + 1) = 2 ^ l0. -/
theorem lowest_of_testBit {n l0 : Nat} (set : n.testBit l0 = true)
    (clear : ∀ l < l0, n.testBit l = false) : n % 2 ^ (l0 + 1) = 2 ^ l0 := by
  rw [Nat.testBit_eq_decide_div_mod_eq, decide_eq_true_iff] at set
  rw [Nat.mod_pow_succ, mod_two_pow_eq_zero clear, set, Nat.mul_one, Nat.zero_add]

section Lowest

variable {n l0 : Nat} (lowest : n % 2 ^ (l0 + 1) = 2 ^ l0)
include lowest

theorem mod_of_lowest : n % 2 ^ l0 = 0 := by
  rw [← Nat.mod_mod_of_dvd n (pow_dvd_pow 2 (Nat.le_succ l0)), lowest, Nat.mod_self]

theorem testBit_of_lowest : n.testBit l0 = true := by
  have bit := Nat.testBit_mod_two_pow n (l0 + 1) l0
  rw [lowest, Nat.testBit_two_pow_self] at bit
  simpa using bit.symm

theorem pos_of_lowest : 0 < n := Nat.pos_of_ne_zero fun empty => by
  rw [empty, Nat.zero_mod] at lowest
  exact (Nat.two_pow_pos l0).ne lowest

/-- The level of the lowest set bit has an odd number of nodes, all complete. -/
theorem width_of_lowest : width n l0 * 2 ^ l0 = n ∧ width n l0 % 2 = 1 := by
  have set := testBit_of_lowest lowest
  rw [Nat.testBit_eq_decide_div_mod_eq, decide_eq_true_iff] at set
  rw [width_eq_div (pos_of_lowest lowest) (mod_of_lowest lowest)]
  exact ⟨Nat.div_mul_cancel (Nat.dvd_of_mod_eq_zero (mod_of_lowest lowest)), set⟩

/-- Above its lowest set bit, n is no multiple of a power of two. -/
theorem mod_ne_zero_of_lowest {m : Nat} (above : l0 < m) : n % 2 ^ m ≠ 0 := by
  intro multiple
  have low := Nat.mod_mod_of_dvd n (pow_dvd_pow 2 (show l0 + 1 ≤ m by omega))
  rw [multiple, Nat.zero_mod, lowest] at low
  exact (Nat.two_pow_pos l0).ne low

end Lowest

end Counter

/-! ### Dyadic blocks

The leaves a node of level l covers form a block of 2 ^ l; a block of level M is a union of
blocks of every lower level. -/

section Blocks

variable {p q i j M : Nat}

/-- A position in the q-th block of 2 ^ i shifts down to q. -/
theorem shiftRight_eq_of_mem (lo : q * 2 ^ i ≤ p) (hi : p < (q + 1) * 2 ^ i) : p >>> i = q := by
  rw [Nat.shiftRight_eq_div_pow]
  exact Nat.div_eq_of_lt_le lo hi

/-- The block of level M that holds p starts no later than its block of level j ≤ M. -/
theorem div_mul_le_div_mul (le : j ≤ M) : p / 2 ^ M * 2 ^ M ≤ p / 2 ^ j * 2 ^ j := by
  obtain ⟨d, rfl⟩ := Nat.exists_eq_add_of_le le
  calc p / 2 ^ (j + d) * 2 ^ (j + d) = p / 2 ^ j / 2 ^ d * 2 ^ d * 2 ^ j := by
        rw [pow_add, ← Nat.div_div_eq_div_mul]
        ring
    _ ≤ p / 2 ^ j * 2 ^ j := Nat.mul_le_mul_right _ (Nat.div_mul_le_self _ _)

/-- ... and ends no earlier. -/
theorem div_succ_mul_le (le : j ≤ M) : (p / 2 ^ j + 1) * 2 ^ j ≤ (p / 2 ^ M + 1) * 2 ^ M := by
  obtain ⟨d, rfl⟩ := Nat.exists_eq_add_of_le le
  -- the block of level j + d ends at a multiple of 2 ^ j past p
  have ends : p / 2 ^ j < (p / 2 ^ (j + d) + 1) * 2 ^ d := by
    rw [pow_add, ← Nat.div_div_eq_div_mul]
    exact Nat.lt_mul_of_div_lt (Nat.lt_succ_self _) (Nat.two_pow_pos d)
  calc (p / 2 ^ j + 1) * 2 ^ j ≤ (p / 2 ^ (j + d) + 1) * 2 ^ d * 2 ^ j :=
        Nat.mul_le_mul_right _ ends
    _ = (p / 2 ^ (j + d) + 1) * 2 ^ (j + d) := by
        rw [pow_add]
        ring

/-- The sibling of a node shares its parent: both lie in the block of the level above. -/
theorem xor_one_succ_mul_le (i : Nat) :
    (((p >>> i) ^^^ 1) + 1) * 2 ^ i ≤ (p / 2 ^ (i + 1) + 1) * 2 ^ (i + 1) := by
  have parent : p / 2 ^ (i + 1) = p >>> i / 2 := by
    rw [Nat.shiftRight_eq_div_pow, pow_succ, Nat.div_div_eq_div_mul]
  rw [parent, pow_succ, ← Nat.mul_assoc, Nat.mul_right_comm]
  apply Nat.mul_le_mul_right
  generalize p >>> i = q
  rcases Nat.even_or_odd q with even | odd
  · rw [Nat.xor_one_of_even even]
    rw [Nat.even_iff] at even
    omega
  · rw [Nat.xor_one_of_odd odd]
    rw [Nat.odd_iff] at odd
    omega

/-- A leaf in the left half of the block of 2 ^ (i + 1) at t has the right half as its sibling
on level i. -/
theorem sibling_of_left {t : Nat} (lo : t * 2 ^ (i + 1) ≤ p) (hi : p < t * 2 ^ (i + 1) + 2 ^ i) :
    ((p >>> i) ^^^ 1) * 2 ^ i = t * 2 ^ (i + 1) + 2 ^ i := by
  have halves : 2 * t * 2 ^ i = t * 2 ^ (i + 1) := by ring
  rw [shiftRight_eq_of_mem (q := 2 * t) (by rw [halves]; exact lo)
      (by rw [Nat.add_mul, Nat.one_mul, halves]; exact hi),
    Nat.xor_one_of_even (even_two_mul t), Nat.add_mul, Nat.one_mul, halves]

/-- ... and one in the right half the left half. -/
theorem sibling_of_right {t : Nat} (lo : t * 2 ^ (i + 1) + 2 ^ i ≤ p) (hi : p < (t + 1) * 2 ^ (i + 1)) :
    ((p >>> i) ^^^ 1) * 2 ^ i = t * 2 ^ (i + 1) := by
  have halves : 2 * t * 2 ^ i = t * 2 ^ (i + 1) := by ring
  have whole : (2 * t + 1 + 1) * 2 ^ i = (t + 1) * 2 ^ (i + 1) := by ring
  rw [shiftRight_eq_of_mem (q := 2 * t + 1) (by rw [Nat.add_mul, Nat.one_mul, halves]; exact lo)
      (by rw [whole]; exact hi),
    Nat.xor_one_of_odd (odd_two_mul_add_one t), Nat.add_sub_cancel, halves]

/-- Under a set bit M, k / 2 ^ M is odd: twice the higher bits, and one. -/
theorem div_two_pow_of_testBit {k : Nat} (set : k.testBit M = true) :
    k / 2 ^ M = k / 2 ^ (M + 1) * 2 + 1 := by
  rw [Nat.testBit_eq_decide_div_mod_eq, decide_eq_true_iff] at set
  rw [pow_succ, ← Nat.div_div_eq_div_mul]
  omega

/-- The block of a set bit M of k ends where the blocks of the bits from M up end. -/
theorem div_mul_add_of_testBit {k : Nat} (set : k.testBit M = true) :
    k / 2 ^ (M + 1) * 2 ^ (M + 1) + 2 ^ M = k / 2 ^ M * 2 ^ M := by
  rw [div_two_pow_of_testBit set]
  ring

/-- A count of whole blocks of 2 ^ m has the bit m of their number's parity. -/
theorem testBit_mul_two_pow_self (w m : Nat) : (w * 2 ^ m).testBit m = decide (w % 2 = 1) := by
  rw [Nat.testBit_mul_two_pow, Nat.sub_self, Nat.testBit_zero]
  simp

end Blocks

end MerkleTree
