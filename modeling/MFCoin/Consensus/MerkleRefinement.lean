/-
Module: MFCoin.Consensus.MerkleRefinement
Purpose: MerkleComputation computes the tree of MerkleTree. After the leaves before k, inner
  holds at each set bit l of k the complete subtree over that bit's block of 2 ^ l leaves, and
  adding a leaf is a binary increment of count whose carries merge the blocks; the final sweep
  then climbs the rightmost nodes of the tree, hashing the odd ones with themselves. Along the
  way matchlevel names the stored block that holds the leaf at branchpos, and the branch holds
  its siblings below that block. So, for up to 2 ^ 31 leaves, ComputeMerkleRoot returns the
  root of the reference BlockBuildMerkleTree with a flag that notes every pair of equal sibling
  subtrees, and ComputeMerkleBranch the reference's branch.
Trusted boundary: none beyond MFCoin.Consensus.Merkle
Main exports: Computation.carryLoop_rule, Filled, Tracked, Computation.addLeaf_filled,
  foldlM_addLeaf, Sweeping, SweepTracked, Computation.sweep_root, merkleComputation_eq
-/
import MFCoin.Consensus.Merkle
import MFCoin.Lib.ExceptRun

namespace MFCoin.Consensus

open MerkleTree

/-! ### The loops of MerkleComputation, as rules -/

section Loops

variable {D : Type} [DecidableEq D] (hash : D → D → D)

/-- The loop test !(count & (1 << level)) reads the bit level of count. -/
theorem and_one_shiftLeft_eq_zero (count level : Nat) :
    count &&& 1 <<< level = 0 ↔ count.testBit level = false := by
  rw [Nat.one_shiftLeft, MFCoin.Arith.and_two_pow_eq_zero_iff]

/-- The rule of the carry loop: an invariant of the levels that each carry over a clear bit
keeps holds where the loop stops, at a set bit of count, when one is within the fuel. -/
theorem Computation.carryLoop_rule (pbranch flag : Bool)
    (Inv : Nat → D → Bool → Computation D → Prop)
    (carry : ∀ level h matchh (c : Computation D), Inv level h matchh c →
      c.count.testBit level = false →
      Inv (level + 1) (c.carry hash pbranch flag level h matchh).1
        (c.carry hash pbranch flag level h matchh).2.1 (c.carry hash pbranch flag level h matchh).2.2) :
    ∀ fuel level h matchh (c : Computation D), Inv level h matchh c →
      ∀ stop, level ≤ stop → stop < level + fuel → c.count.testBit stop = true →
      ∃ top h' matchh' c', c.carryLoop hash pbranch flag fuel level h matchh = some (top, h', matchh', c') ∧
        Inv top h' matchh' c' ∧ c'.count = c.count ∧ c.count.testBit top = true
  | 0, _, _, _, _, _, _, _, below, _ => absurd below (by omega)
  | fuel + 1, level, h, matchh, c, inv, stop, above, below, set => by
    by_cases clear : c.count.testBit level = false
    · -- a carry, and the stop is further up
      have further : level + 1 ≤ stop := by
        rcases Nat.eq_or_lt_of_le above with rfl | lt
        · simp [set] at clear
        · exact lt
      obtain ⟨top, h', matchh', c', ran, inv', count, topSet⟩ :=
        carryLoop_rule pbranch flag Inv carry fuel (level + 1) _ _ _ (carry level h matchh c inv clear) stop
          further (by omega) (by simpa using set)
      refine ⟨top, h', matchh', c', ?_, inv', by simpa using count, by simpa using topSet⟩
      rw [carryLoop, if_pos ((and_one_shiftLeft_eq_zero _ _).mpr clear)]
      exact ran
    · refine ⟨level, h, matchh, c, ?_, inv, rfl, by simpa using clear⟩
      rw [carryLoop, if_neg (by rw [and_one_shiftLeft_eq_zero]; exact clear)]

/-- The search for the lowest set bit finds it within the fuel. -/
theorem lowestLevel_eq {count top : Nat} (set : count.testBit top = true)
    (clear : ∀ l < top, count.testBit l = false) :
    ∀ fuel level, level ≤ top → top < level + fuel → lowestLevel count fuel level = some top
  | 0, _, _, below => absurd below (by omega)
  | fuel + 1, level, above, below => by
    rcases Nat.eq_or_lt_of_le above with rfl | lt
    · rw [lowestLevel, if_neg (by rw [and_one_shiftLeft_eq_zero, set]; simp)]
    · rw [lowestLevel, if_pos ((and_one_shiftLeft_eq_zero _ _).mpr (clear level lt))]
      exact lowestLevel_eq set clear fuel (level + 1) lt (by omega)

end Loops

/-! ### The loop over the leaves -/

section Leaves

variable {D : Type} (hash : D → D → D) (f : Nat → D)

/-- inner holds, at each set bit l of k, the complete subtree over that bit's block of leaves,
the one that starts where the blocks of the higher bits end. -/
def Stores (k : Nat) (inner : Nat → D) : Prop :=
  ∀ l, k.testBit l = true → inner l = subtree hash f l (k / 2 ^ (l + 1) * 2 ^ (l + 1))

/-- Leaf p lies in the block of the set bit M of k. -/
def InBlock (k p M : Nat) : Prop :=
  k.testBit M = true ∧ k / 2 ^ (M + 1) * 2 ^ (M + 1) ≤ p ∧ p < k / 2 ^ (M + 1) * 2 ^ (M + 1) + 2 ^ M

/-- The siblings of leaf p on the levels below l, as complete subtrees. -/
def siblings (p l : Nat) : List D :=
  (List.range l).map fun i => subtree hash f i (((p >>> i) ^^^ 1) * 2 ^ i)

theorem siblings_succ (p l : Nat) :
    siblings hash f p (l + 1) = siblings hash f p l ++ [subtree hash f l (((p >>> l) ^^^ 1) * 2 ^ l)] := by
  simp [siblings, List.range_succ]

/-- The state after the leaves before k: the count, the stored blocks and the flag of the equal
siblings among those leaves. -/
structure Filled (k : Nat) (c : Computation D) : Prop where
  count : c.count = k
  stores : Stores hash f k c.inner
  mutated : c.mutated = true ↔ SiblingsEqual hash f k

/-- The branch of leaf p after the leaves before k: once p is among them, matchlevel is the level
of the stored block that holds it and the branch its siblings below that level; before, nothing. -/
structure Tracked (p k : Nat) (c : Computation D) : Prop where
  reached : p < k → ∃ M, InBlock k p M ∧ c.matchlevel = M ∧ c.branch = siblings hash f p M
  ahead : k ≤ p → c.matchlevel = -1 ∧ c.branch = []

/-- The state of the carry loop at level i while leaf k is added: count is k + 1, whose bits
below i are clear, inner still holds the blocks of k, and h is the complete subtree over the
2 ^ i leaves that end with leaf k. The flag has also seen the pairs merged below i. -/
structure Carrying (k i : Nat) (h : D) (c : Computation D) : Prop where
  count : c.count = k + 1
  low : (k + 1) % 2 ^ i = 0
  stores : Stores hash f k c.inner
  carried : h = subtree hash f i (k + 1 - 2 ^ i)
  mutated : c.mutated = true ↔ SiblingsEqual hash f k ∨
    ∃ j < i, (k + 1) % 2 ^ (j + 1) = 0 ∧
      subtree hash f j (k + 1 - 2 ^ (j + 1)) = subtree hash f j (k + 1 - 2 ^ j)

/-- Leaf p against the carry at level i: matchh says that the carried subtree holds p, and then
the branch has its siblings below i; a leaf before the carried ones lies in a stored block of
level i or above, which matchlevel names. -/
structure CarryTracked (p k i : Nat) (matchh : Bool) (c : Computation D) : Prop where
  holds : matchh = decide (k + 1 - 2 ^ i ≤ p ∧ p < k + 1)
  carried : k + 1 - 2 ^ i ≤ p → p < k + 1 → c.branch = siblings hash f p i
  reached : p < k + 1 - 2 ^ i →
    ∃ M, i ≤ M ∧ InBlock k p M ∧ c.matchlevel = M ∧ c.branch = siblings hash f p M
  ahead : k + 1 ≤ p → c.matchlevel = -1 ∧ c.branch = []

variable {hash f}

theorem Filled.initial (zero : D) : Filled hash f 0 ⟨0, fun _ => zero, -1, false, []⟩ where
  count := rfl
  stores l set := by simp at set
  mutated := by
    simp only [Bool.false_eq_true, false_iff]
    rintro ⟨l, j, within, -⟩
    have := Nat.two_pow_pos l
    nlinarith

theorem Tracked.initial (zero : D) (p : Nat) : Tracked hash f p 0 ⟨0, fun _ => zero, -1, false, []⟩ where
  reached below := absurd below (Nat.not_lt_zero p)
  ahead _ := ⟨rfl, rfl⟩

/-- Adding leaf k starts the carry at level 0 with the leaf itself. -/
theorem Filled.start {k : Nat} {c : Computation D} (filled : Filled hash f k c) :
    Carrying hash f k 0 (f k) { c with count := c.count + 1 } where
  count := by rw [filled.count]
  low := Nat.mod_one _
  stores := filled.stores
  carried := by simp [subtree]
  mutated := by simp [filled.mutated]

theorem Tracked.start {p k : Nat} {c : Computation D} (filled : Filled hash f k c)
    (tracked : Tracked hash f p k c) :
    CarryTracked hash f p k 0 (decide (c.count = p)) { c with count := c.count + 1 } where
  holds := by
    rw [filled.count]
    simp only [pow_zero, Nat.add_sub_cancel]
    exact decide_eq_decide.mpr (by omega)
  carried lo hi := by
    rw [(tracked.ahead (by omega)).2]
    rfl
  reached below := by
    obtain ⟨M, inBlock, level, branch⟩ := tracked.reached (by omega)
    exact ⟨M, Nat.zero_le M, inBlock, level, branch⟩
  ahead above := tracked.ahead (by omega)

/-- Past the lowest set bit L of k + 1, the bits of k + 1 are those of k. -/
theorem testBit_succ_of_lt {k L l : Nat} (low : (k + 1) % 2 ^ L = 0)
    (set : (k + 1).testBit L = true) (above : L < l) : (k + 1).testBit l = k.testBit l := by
  rw [Nat.testBit_eq_decide_div_mod_eq, Nat.testBit_eq_decide_div_mod_eq,
    (carry_set low set).2.2 l above]

/-- The bits of a multiple of 2 ^ L below L are clear. -/
theorem testBit_eq_false_of_mod {x L l : Nat} (low : x % 2 ^ L = 0) (below : l < L) :
    x.testBit l = false := by
  have bit := Nat.testBit_mod_two_pow x L l
  rw [low, Nat.zero_testBit, decide_eq_true below, Bool.true_and] at bit
  exact bit.symm

/-- The block of a set bit M of k ends where the blocks of the higher bits do. -/
theorem InBlock.lt {k p M : Nat} (inBlock : InBlock k p M) : p < k / 2 ^ M * 2 ^ M := by
  have ends := div_mul_add_of_testBit inBlock.1
  have := inBlock.2.2
  omega

/-- Where the carry loop stops, at the lowest set bit L of k + 1, h is stored as the block of
that bit, and the pairs merged are those the new leaf completes. -/
theorem Carrying.stop {k L : Nat} {h : D} {matchh : Bool} {c : Computation D}
    (carrying : Carrying hash f k L h c) (set : c.count.testBit L = true) :
    Filled hash f (k + 1) { c with inner := Function.update c.inner L h,
                                   matchlevel := if matchh then L else c.matchlevel } := by
  rw [carrying.count] at set
  have low := carrying.low
  obtain ⟨start, -, -⟩ := carry_set low set
  refine ⟨carrying.count, fun l bit => ?_, ?_⟩
  · rcases lt_trichotomy l L with below | rfl | above
    · rw [testBit_eq_false_of_mod low below] at bit
      exact absurd bit (by simp)
    · dsimp only
      rw [Function.update_self, carrying.carried,
        show k + 1 - 2 ^ l = (k + 1) / 2 ^ (l + 1) * 2 ^ (l + 1) by omega]
    · dsimp only
      rw [Function.update_of_ne (by omega), carrying.stores l (by rwa [← testBit_succ_of_lt low set above]),
        (carry_set low set).2.2 (l + 1) (by omega)]
  · rw [carrying.mutated, siblingsEqual_succ]
    -- the pairs that end at leaf k have levels below the lowest set bit of k + 1
    have levels : ∀ j, (k + 1) % 2 ^ (j + 1) = 0 → j < L := by
      intro j multiple
      by_contra atLeast
      have := testBit_eq_false_of_mod multiple (show L < j + 1 by omega)
      rw [set] at this
      exact absurd this (by simp)
    constructor
    · rintro (siblings | ⟨j, -, pair⟩)
      · exact .inl siblings
      · exact .inr ⟨j, pair⟩
    · rintro (siblings | ⟨j, pair⟩)
      · exact .inl siblings
      · exact .inr ⟨j, levels j pair.1, pair⟩

/-- ... and matchlevel names the block of p when the carried subtree held it. -/
theorem Tracked.stop {p k L : Nat} {h : D} {matchh : Bool} {c : Computation D}
    (carrying : Carrying hash f k L h c) (tracked : CarryTracked hash f p k L matchh c)
    (set : c.count.testBit L = true) :
    Tracked hash f p (k + 1) { c with inner := Function.update c.inner L h,
                                      matchlevel := if matchh then L else c.matchlevel } := by
  rw [carrying.count] at set
  have low := carrying.low
  obtain ⟨start, clearBit, same⟩ := carry_set low set
  refine ⟨fun below => ?_, fun above => ?_⟩
  · by_cases inCarried : k + 1 - 2 ^ L ≤ p
    · have holds : matchh = true := by rw [tracked.holds]; exact decide_eq_true ⟨inCarried, below⟩
      refine ⟨L, ⟨set, by omega, by omega⟩, by simp [holds], tracked.carried inCarried below⟩
    · obtain ⟨M, above, inBlock, level, branch⟩ := tracked.reached (by omega)
      have holds : matchh = false := by
        rw [tracked.holds]
        exact decide_eq_false (by omega)
      have higher : L < M := by
        rcases Nat.eq_or_lt_of_le above with rfl | lt
        · rw [inBlock.1] at clearBit
          exact absurd clearBit (by simp)
        · exact lt
      refine ⟨M, ⟨by rw [testBit_succ_of_lt low set higher]; exact inBlock.1, ?_, ?_⟩, by simp [holds, level],
        branch⟩
      · rw [same (M + 1) (by omega)]
        exact inBlock.2.1
      · rw [same (M + 1) (by omega)]
        exact inBlock.2.2
  · obtain ⟨level, branch⟩ := tracked.ahead above
    have holds : matchh = false := by
      rw [tracked.holds]
      exact decide_eq_false (by omega)
    exact ⟨by simp [holds, level], branch⟩

/-- On the level of its block, p is the left half of the pair the higher bits of k end with. -/
theorem InBlock.shiftRight_eq {k p M : Nat} (inBlock : InBlock k p M) :
    p >>> M = k / 2 ^ (M + 1) * 2 := by
  have pow : k / 2 ^ (M + 1) * 2 * 2 ^ M = k / 2 ^ (M + 1) * 2 ^ (M + 1) := by ring
  exact shiftRight_eq_of_mem (by rw [pow]; exact inBlock.2.1)
    (by rw [Nat.add_mul, Nat.one_mul, pow]; exact inBlock.2.2)

variable [DecidableEq D]

/-- A carry at a clear bit i of k + 1 merges the stored block of the bit i of k with the
carried one, and the flag sees whether the two are equal. -/
theorem Carrying.carry {k i : Nat} {h : D} {pbranch matchh : Bool} {c : Computation D}
    (carrying : Carrying hash f k i h c) (clear : c.count.testBit i = false) :
    Carrying hash f k (i + 1) (c.carry hash pbranch true i h matchh).1
      (c.carry hash pbranch true i h matchh).2.2 := by
  rw [carrying.count] at clear
  obtain ⟨low, set, start⟩ := carry_clear carrying.low clear
  have pow : 2 ^ (i + 1) = 2 ^ i + 2 ^ i := by rw [pow_succ, Nat.mul_two]
  have stored : c.inner i = subtree hash f i (k + 1 - 2 ^ (i + 1)) := by
    rw [carrying.stores i set, show k / 2 ^ (i + 1) * 2 ^ (i + 1) = k + 1 - 2 ^ (i + 1) by omega]
  have equal : (c.inner i == h) = true ↔
      subtree hash f i (k + 1 - 2 ^ (i + 1)) = subtree hash f i (k + 1 - 2 ^ i) := by
    rw [stored, carrying.carried, beq_iff_eq]
  refine ⟨by simp [carrying.count], low, by simpa using carrying.stores, ?_, ?_⟩
  · rw [Computation.carry_hash, stored, carrying.carried, subtree,
      show k + 1 - 2 ^ (i + 1) + 2 ^ i = k + 1 - 2 ^ i by omega]
  · simp only [Computation.carry_mutated, Bool.true_and, Bool.or_eq_true, carrying.mutated, equal]
    constructor
    · rintro ((siblings | ⟨j, lt, pair⟩) | pair)
      · exact .inl siblings
      · exact .inr ⟨j, by omega, pair⟩
      · exact .inr ⟨i, by omega, low, pair⟩
    · rintro (siblings | ⟨j, lt, pair⟩)
      · exact .inl (.inl siblings)
      · rcases Nat.lt_succ_iff_lt_or_eq.mp lt with lt | rfl
        · exact .inl (.inr ⟨j, lt, pair⟩)
        · exact .inr pair.2

/-- The branch across a carry at level i: a leaf in the carried subtree gets the stored block as
its sibling; a leaf of the stored block gets the carried subtree and is carried from then on. -/
theorem CarryTracked.carry {p k i : Nat} {h : D} {matchh : Bool} {c : Computation D}
    (carrying : Carrying hash f k i h c) (tracked : CarryTracked hash f p k i matchh c)
    (clear : c.count.testBit i = false) :
    CarryTracked hash f p k (i + 1) (c.carry hash true true i h matchh).2.1
      (c.carry hash true true i h matchh).2.2 := by
  rw [carrying.count] at clear
  obtain ⟨low, set, start⟩ := carry_clear carrying.low clear
  have pow : 2 ^ (i + 1) = 2 ^ i + 2 ^ i := by rw [pow_succ, Nat.mul_two]
  have stored : c.inner i = subtree hash f i (k + 1 - 2 ^ (i + 1)) := by
    rw [carrying.stores i set, show k / 2 ^ (i + 1) * 2 ^ (i + 1) = k + 1 - 2 ^ (i + 1) by omega]
  by_cases inCarried : k + 1 - 2 ^ i ≤ p ∧ p < k + 1
  · -- p is carried: its sibling on level i is the stored block before it
    have holds : matchh = true := by rw [tracked.holds]; exact decide_eq_true inCarried
    have sibling : ((p >>> i) ^^^ 1) * 2 ^ i = k + 1 - 2 ^ (i + 1) := by
      rw [sibling_of_right (t := k / 2 ^ (i + 1)) (by omega) (by rw [Nat.succ_mul]; omega)]
      omega
    refine ⟨?_, fun _ _ => ?_, fun below => absurd below (by omega), fun above => absurd above (by omega)⟩
    · simp only [Computation.carry_matchh, Computation.record, holds, if_true]
      exact (decide_eq_true (by omega)).symm
    · simp only [Computation.carry_branch, Computation.record, holds, if_true, siblings_succ,
        tracked.carried inCarried.1 inCarried.2, sibling, stored]
  by_cases ahead : k + 1 ≤ p
  · -- p is not reached: nothing to record
    obtain ⟨level, branch⟩ := tracked.ahead ahead
    have holds : matchh = false := by rw [tracked.holds]; exact decide_eq_false inCarried
    have other : c.matchlevel ≠ (i : Int) := by rw [level]; omega
    refine ⟨?_, fun _ hi => absurd hi (by omega), fun below => absurd below (by omega), fun _ => ?_⟩
    · simp only [Computation.carry_matchh, Computation.record, holds, other, if_true, if_false]
      exact (decide_eq_false (by omega)).symm
    · simp [Computation.record, holds, level, branch]
  obtain ⟨M, above, inBlock, level, branch⟩ := tracked.reached (by omega)
  have holds : matchh = false := by rw [tracked.holds]; exact decide_eq_false inCarried
  rcases Nat.eq_or_lt_of_le above with rfl | higher
  · -- p lies in the stored block of the bit i: the carried subtree is its sibling
    have sibling : ((p >>> i) ^^^ 1) * 2 ^ i = k + 1 - 2 ^ i := by
      rw [sibling_of_left inBlock.2.1 inBlock.2.2]
      omega
    have same : c.matchlevel = (i : Int) := level
    refine ⟨?_, fun _ _ => ?_, fun below => absurd below (by have := inBlock.2.1; omega),
      fun above => absurd above (by omega)⟩
    · simp only [Computation.carry_matchh, Computation.record, holds, same, if_true]
      exact (decide_eq_true (by have := inBlock.2.1; have := inBlock.2.2; omega)).symm
    · simp [Computation.record, holds, same, siblings_succ, branch, sibling, carrying.carried]
  · -- p lies in a higher block, before the stored block of the bit i
    have before : p < k + 1 - 2 ^ (i + 1) := by
      have := div_mul_le_div_mul (p := k) (show i + 1 ≤ M by omega)
      have := inBlock.lt
      omega
    have other : c.matchlevel ≠ (i : Int) := by rw [level]; omega
    refine ⟨?_, fun lo _ => absurd lo (by omega),
      fun _ => ⟨M, higher, inBlock, by simpa using level, by simpa [Computation.record, holds, other] using branch⟩,
      fun above => absurd above (by omega)⟩
    simp only [Computation.carry_matchh, Computation.record, holds, other, if_true, if_false]
    exact (decide_eq_false (by omega)).symm

/-- Adding leaf k keeps both invariants. The carry loop stops at the lowest set bit of k + 1,
within its 32 levels while k + 1 ≤ 2 ^ 31. -/
theorem Computation.addLeaf_filled {pbranch : Bool} {p k : Nat} {c : Computation D}
    (filled : Filled hash f k c) (tracked : pbranch = true → Tracked hash f p k c)
    (fits : k + 1 ≤ 2 ^ 31) :
    ∃ c', c.addLeaf hash pbranch p (f k) = some c' ∧ Filled hash f (k + 1) c' ∧
      (pbranch = true → Tracked hash f p (k + 1) c') := by
  obtain ⟨stop, set⟩ := Nat.exists_testBit_of_ne_zero (show k + 1 ≠ 0 by omega)
  have within : stop < 32 := by
    have := Nat.ge_two_pow_of_testBit set
    exact (Nat.pow_lt_pow_iff_right (by norm_num : 1 < 2)).mp (by omega)
  obtain ⟨top, h, matchh, c', ran, ⟨carrying, carryTracked⟩, count, topSet⟩ :=
    Computation.carryLoop_rule hash pbranch true
      (fun i h matchh c' => Carrying hash f k i h c' ∧
        (pbranch = true → CarryTracked hash f p k i matchh c'))
      (fun _ _ _ _ ⟨carrying, tracked⟩ clear => ⟨carrying.carry clear, fun isBranch => by
        subst isBranch
        exact (tracked rfl).carry carrying clear⟩)
      32 0 (f k) (decide (c.count = p)) { c with count := c.count + 1 }
      ⟨filled.start, fun isBranch => (tracked isBranch).start filled⟩ stop (Nat.zero_le _) within
      (by simpa [filled.count] using set)
  have stopped : c'.count.testBit top = true := by rw [count]; exact topSet
  exact ⟨_, Computation.addLeaf_eq hash ran, carrying.stop stopped,
    fun isBranch => Tracked.stop carrying (carryTracked isBranch) stopped⟩

end Leaves

section Run

variable {D : Type} [DecidableEq D] (hash : D → D → D) (zero : D)

/-- The loop over the leaves ends with count their number, the blocks of its set bits in inner,
and the flag and the branch of all the leaves. -/
theorem foldlM_addLeaf (pbranch : Bool) (leaves : List D) (p : Nat) (fits : leaves.length ≤ 2 ^ 31) :
    ∃ c, leaves.foldlM (fun (c : Computation D) leaf => c.addLeaf hash pbranch p leaf)
        ⟨0, fun _ => zero, -1, false, []⟩ = some c ∧
      Filled hash (leafAt zero leaves) leaves.length c ∧
      (pbranch = true → Tracked hash (leafAt zero leaves) p leaves.length c) :=
  List.foldlM_some_of_step _
    (fun k c => Filled hash (leafAt zero leaves) k c ∧
      (pbranch = true → Tracked hash (leafAt zero leaves) p k c)) leaves
    (fun k c lt ⟨filled, tracked⟩ => by
      have leaf : leaves[k] = leafAt zero leaves k := by rw [leafAt, List.getD_eq_getElem]
      rw [leaf]
      exact Computation.addLeaf_filled filled tracked (by omega))
    _ ⟨Filled.initial zero, fun _ => Tracked.initial zero p⟩

end Run

/-! ### The final sweep -/

section Sweep

variable {D : Type} (hash : D → D → D) (zero : D) (leaves : List D)

/-- Below the level of a complete block of leaves, the reference's siblings of p are the
complete subtrees next to it. -/
theorem siblingAt_of_inBlock {p M i : Nat} (inBlock : InBlock leaves.length p M) (below : i < M) :
    siblingAt hash zero leaves p i = subtree hash (leafAt zero leaves) i (((p >>> i) ^^^ 1) * 2 ^ i) := by
  have blockEnd : (p / 2 ^ M + 1) * 2 ^ M ≤ leaves.length := by
    rw [← Nat.shiftRight_eq_div_pow, inBlock.shiftRight_eq, Nat.add_mul, Nat.one_mul,
      show leaves.length / 2 ^ (M + 1) * 2 * 2 ^ M = leaves.length / 2 ^ (M + 1) * 2 ^ (M + 1) by ring,
      div_mul_add_of_testBit inBlock.1]
    exact Nat.div_mul_le_self _ _
  have complete : (((p >>> i) ^^^ 1) + 1) * 2 ^ i ≤ leaves.length :=
    (xor_one_succ_mul_le i).trans ((div_succ_mul_le (show i + 1 ≤ M by omega)).trans blockEnd)
  have inside : (p >>> i) ^^^ 1 < width leaves.length i := by
    rw [lt_width_iff]
    have := Nat.two_pow_pos i
    rw [Nat.add_mul, Nat.one_mul] at complete
    omega
  rw [siblingAt, min_eq_left (by omega), treeNode, node_eq_subtree _ _ _ _ _ _ complete]

theorem siblings_eq_map_siblingAt {p M : Nat} (inBlock : InBlock leaves.length p M) :
    siblings hash (leafAt zero leaves) p M = (List.range M).map (siblingAt hash zero leaves p) := by
  apply List.map_congr_left
  intro i mem
  exact (siblingAt_of_inBlock hash zero leaves inBlock (List.mem_range.mp mem)).symm

/-- The final sweep at level m: count as if the rightmost node of each level below m had had its
twin, h the rightmost node of level m, inner and the flag as the loop over the leaves left them.
The sweep starts at the lowest set bit l0 of the number of leaves. -/
structure Sweeping (l0 m : Nat) (h : D) (c : Computation D) : Prop where
  start : l0 ≤ m
  top : m ≤ height leaves
  count : c.count = width leaves.length m * 2 ^ m
  rightmost : h = treeNode hash zero leaves m (width leaves.length m - 1)
  stores : Stores hash (leafAt zero leaves) leaves.length c.inner
  mutated : c.mutated = true ↔ SiblingsEqual hash (leafAt zero leaves) leaves.length

/-- Leaf p in the sweep at level m: with matchh, p is under the rightmost node and the branch has
its siblings below m; otherwise p lies in a stored block above l0 and m, which matchlevel names. -/
structure SweepTracked (p l0 m : Nat) (matchh : Bool) (c : Computation D) : Prop where
  rightmost : matchh = true → p >>> m = width leaves.length m - 1 ∧
    c.branch = (List.range m).map (siblingAt hash zero leaves p)
  stored : matchh = false → ∃ M, m ≤ M ∧ l0 < M ∧ InBlock leaves.length p M ∧
    c.matchlevel = M ∧ c.branch = siblings hash (leafAt zero leaves) p M

variable {hash zero leaves}

/-- The leaves fit under the top of the tree. -/
theorem length_le_two_pow_height (pos : 0 < leaves.length) : leaves.length ≤ 2 ^ height leaves :=
  (width_le_one_iff pos _).mp ((width_le_one_iff_height_le pos _).mpr le_rfl)

/-- A set bit of the number of leaves is a level of the tree. -/
theorem le_height_of_testBit {M : Nat} (pos : 0 < leaves.length) (set : leaves.length.testBit M = true) :
    M ≤ height leaves :=
  (Nat.pow_le_pow_iff_right (by norm_num : 1 < 2)).mp
    ((Nat.ge_two_pow_of_testBit set).trans (length_le_two_pow_height pos))

/-- At most 2 ^ 31 leaves make at most 31 levels above them. -/
theorem height_le_of_fits (pos : 0 < leaves.length) (fits : leaves.length ≤ 2 ^ 31) :
    height leaves ≤ 31 :=
  (width_le_one_iff_height_le pos 31).mp ((width_le_one_iff pos 31).mpr fits)

/-- One level up, p is under the parent of its node. -/
theorem shiftRight_succ (p m : Nat) : p >>> (m + 1) = p >>> m / 2 := by
  rw [Nat.shiftRight_add, Nat.shiftRight_eq_div_pow _ 1, pow_one]

section Start

variable {l0 : Nat} (lowest : leaves.length % 2 ^ (l0 + 1) = 2 ^ l0)
include lowest

/-- The sweep starts at the lowest set bit with the block stored there, the rightmost node of
its level. -/
theorem Sweeping.initial {c : Computation D} (filled : Filled hash (leafAt zero leaves) leaves.length c) :
    Sweeping hash zero leaves l0 l0 (c.inner l0) c := by
  obtain ⟨whole, odd⟩ := width_of_lowest lowest
  have set := testBit_of_lowest lowest
  refine ⟨le_rfl, le_height_of_testBit (pos_of_lowest lowest) set, by rw [filled.count, whole], ?_,
    filled.stores, filled.mutated⟩
  have start := div_mul_add_of_testBit set
  have multiple := Nat.div_mul_cancel (Nat.dvd_of_mod_eq_zero (mod_of_lowest lowest))
  rw [filled.stores l0 set, treeNode,
    node_eq_subtree _ _ _ _ _ _ (by rw [Nat.sub_add_cancel (by omega), whole])]
  congr 1
  rw [Nat.sub_one_mul, whole]
  omega

theorem SweepTracked.initial {p : Nat} {c : Computation D} (inside : p < leaves.length)
    (tracked : Tracked hash (leafAt zero leaves) p leaves.length c) :
    SweepTracked hash zero leaves p l0 l0 (decide (c.matchlevel = l0)) c := by
  obtain ⟨M, inBlock, level, branch⟩ := tracked.reached inside
  -- the bits of the number of leaves below l0 are clear
  have above : l0 ≤ M := by
    by_contra below
    have set := inBlock.1
    rw [testBit_eq_false_of_mod (mod_of_lowest lowest) (by omega)] at set
    exact absurd set (by simp)
  rcases Nat.eq_or_lt_of_le above with rfl | higher
  · refine ⟨fun _ => ⟨?_, ?_⟩, fun notMatched => absurd notMatched (by simp [level])⟩
    · have odd := div_two_pow_of_testBit inBlock.1
      rw [inBlock.shiftRight_eq, width_eq_div (pos_of_lowest lowest) (mod_of_lowest lowest)]
      omega
    · rw [branch, siblings_eq_map_siblingAt hash zero leaves inBlock]
  · refine ⟨fun matched => absurd matched (by simp [level]; omega),
      fun _ => ⟨M, above, higher, inBlock, level, branch⟩⟩

end Start

section Steps

variable {l0 : Nat} (lowest : leaves.length % 2 ^ (l0 + 1) = 2 ^ l0)
include lowest

/-- A level of the sweep where count has a clear bit has an even number of nodes and lies
above l0 and below the top; the node before its rightmost is the stored block of the bit m of
the number of leaves. -/
theorem Sweeping.stored_pair {m : Nat} {h : D} {c : Computation D}
    (sweeping : Sweeping hash zero leaves l0 m h c) (clear : c.count.testBit m = false) :
    width leaves.length m % 2 = 0 ∧ l0 < m ∧ m < height leaves ∧
      leaves.length / 2 ^ (m + 1) * 2 ^ (m + 1) = (width leaves.length m - 2) * 2 ^ m ∧
      c.inner m = treeNode hash zero leaves m (width leaves.length m - 2) := by
  have pos := pos_of_lowest lowest
  rw [sweeping.count, testBit_mul_two_pow_self] at clear
  have even : width leaves.length m % 2 = 0 := by simpa using clear
  have higher : l0 < m := by
    rcases Nat.eq_or_lt_of_le sweeping.start with rfl | lt
    · have := (width_of_lowest lowest).2
      omega
    · exact lt
  have notMultiple := mod_ne_zero_of_lowest lowest higher
  obtain ⟨set, start⟩ := block_of_even_width notMultiple even
  have two : 2 ≤ width leaves.length m := by have := width_pos pos m; omega
  have below : m < height leaves := by
    by_contra atTop
    have := (width_le_one_iff_height_le pos m).mpr (by omega)
    omega
  refine ⟨even, higher, below, start, ?_⟩
  have complete : (width leaves.length m - 2 + 1) * 2 ^ m ≤ leaves.length := by
    rw [show width leaves.length m - 2 + 1 = leaves.length / 2 ^ m by
      have := width_eq_div_succ notMultiple; omega]
    exact Nat.div_mul_le_self _ _
  rw [sweeping.stores m set, start, treeNode, node_eq_subtree _ _ _ _ _ _ complete]

variable [DecidableEq D]

/-- A carry of the sweep pairs the node before the rightmost with it. -/
theorem Sweeping.carry {m : Nat} {h : D} {pbranch matchh : Bool} {c : Computation D}
    (sweeping : Sweeping hash zero leaves l0 m h c) (clear : c.count.testBit m = false) :
    Sweeping hash zero leaves l0 (m + 1) (c.carry hash pbranch false m h matchh).1
      (c.carry hash pbranch false m h matchh).2.2 := by
  obtain ⟨even, -, below, -, stored⟩ := sweeping.stored_pair lowest clear
  have pos := width_pos (pos_of_lowest lowest) m
  refine ⟨by have := sweeping.start; omega, below, ?_, ?_, sweeping.stores, by simpa using sweeping.mutated⟩
  · rw [Computation.carry_count, sweeping.count, width_succ_of_even even]
  · rw [Computation.carry_hash, stored, sweeping.rightmost, treeNode, node_last_succ_even _ _ _ _ _ even pos]

/-- The branch across a carry of the sweep: a leaf under the rightmost node gets the node
before it; a leaf of the stored block gets the rightmost node and is carried from then on. -/
theorem SweepTracked.carry {p m : Nat} {h : D} {matchh : Bool} {c : Computation D}
    (sweeping : Sweeping hash zero leaves l0 m h c)
    (tracked : SweepTracked hash zero leaves p l0 m matchh c) (clear : c.count.testBit m = false) :
    SweepTracked hash zero leaves p l0 (m + 1) (c.carry hash true false m h matchh).2.1
      (c.carry hash true false m h matchh).2.2 := by
  obtain ⟨even, -, -, start, stored⟩ := sweeping.stored_pair lowest clear
  have pos := width_pos (pos_of_lowest lowest) m
  have up : width leaves.length (m + 1) = (width leaves.length m + 1) / 2 := rfl
  cases matchh with
  | true =>
    obtain ⟨under, branch⟩ := tracked.rightmost rfl
    have sibling : siblingAt hash zero leaves p m = c.inner m := by
      rw [siblingAt, under, Nat.xor_one_of_odd (Nat.odd_iff.mpr (by omega)), min_eq_left (by omega),
        show width leaves.length m - 1 - 1 = width leaves.length m - 2 by omega, stored]
    refine ⟨fun _ => ⟨?_, ?_⟩, fun notMatched => absurd notMatched (by simp [Computation.record])⟩
    · rw [shiftRight_succ, under, up]
      omega
    · simp [Computation.record, branch, List.range_succ, sibling]
  | false =>
    obtain ⟨M, above, higher, inBlock, level, branch⟩ := tracked.stored rfl
    rcases Nat.eq_or_lt_of_le above with rfl | lt
    · -- the stored block of the bit m holds p: the rightmost node is its sibling
      have left : p >>> m = width leaves.length m - 2 := by
        rw [inBlock.shiftRight_eq]
        refine Nat.eq_of_mul_eq_mul_right (Nat.two_pow_pos m) ?_
        rw [← start]
        ring
      have sibling : siblingAt hash zero leaves p m = h := by
        rw [siblingAt, left, Nat.xor_one_of_even (Nat.even_iff.mpr (by omega)), min_eq_left (by omega),
          sweeping.rightmost, show width leaves.length m - 2 + 1 = width leaves.length m - 1 by omega]
      have same : c.matchlevel = (m : Int) := level
      refine ⟨fun _ => ⟨?_, ?_⟩, fun notMatched => absurd notMatched (by simp [Computation.record, same])⟩
      · rw [shiftRight_succ, left, up]
        omega
      · simp [Computation.record, same, branch, siblings_eq_map_siblingAt hash zero leaves inBlock,
          List.range_succ, sibling]
    · -- a higher block holds p
      have other : c.matchlevel ≠ (m : Int) := by rw [level]; omega
      refine ⟨fun matched => absurd matched (by simp [Computation.record, other]), fun _ =>
        ⟨M, lt, higher, inBlock, by simpa using level, by simpa [Computation.record, other] using branch⟩⟩

end Steps

section Dup

variable {l0 : Nat} (lowest : leaves.length % 2 ^ (l0 + 1) = 2 ^ l0)
include lowest

/-- A level where the sweep turns has an odd number of nodes, more than one: the rightmost goes
up hashed with itself, and count grows by its missing twin. -/
theorem Sweeping.turn {ℓ : Nat} {h : D} {c : Computation D} (pbranch matchh : Bool)
    (sweeping : Sweeping hash zero leaves l0 ℓ h c) (set : c.count.testBit ℓ = true)
    (notTop : c.count ≠ 1 <<< ℓ) :
    Sweeping hash zero leaves l0 (ℓ + 1) (hash h h)
      { c with count := c.count + 1 <<< ℓ,
               branch := if pbranch && matchh then c.branch ++ [h] else c.branch } := by
  have pos := pos_of_lowest lowest
  rw [sweeping.count, testBit_mul_two_pow_self] at set
  rw [sweeping.count, Nat.one_shiftLeft] at notTop
  have odd : width leaves.length ℓ % 2 = 1 := by simpa using set
  have wide : width leaves.length ℓ ≠ 1 := fun one => notTop (by rw [one, Nat.one_mul])
  have below : ℓ < height leaves := by
    by_contra atTop
    have := (width_le_one_iff_height_le pos ℓ).mpr (by omega)
    have := width_pos pos ℓ
    omega
  refine ⟨by have := sweeping.start; omega, below, ?_, ?_, sweeping.stores, sweeping.mutated⟩
  · simp only [sweeping.count, Nat.one_shiftLeft]
    exact width_succ_of_odd odd
  · rw [sweeping.rightmost, treeNode, node_last_succ_odd _ _ _ _ _ odd, dup]

theorem SweepTracked.turn {p ℓ : Nat} {h : D} {matchh : Bool} {c : Computation D}
    (sweeping : Sweeping hash zero leaves l0 ℓ h c)
    (tracked : SweepTracked hash zero leaves p l0 ℓ matchh c) (set : c.count.testBit ℓ = true) :
    SweepTracked hash zero leaves p l0 (ℓ + 1) matchh
      { c with count := c.count + 1 <<< ℓ,
               branch := if true && matchh then c.branch ++ [h] else c.branch } := by
  rw [sweeping.count, testBit_mul_two_pow_self] at set
  have odd : width leaves.length ℓ % 2 = 1 := by simpa using set
  have up : width leaves.length (ℓ + 1) = (width leaves.length ℓ + 1) / 2 := rfl
  cases matchh with
  | true =>
    obtain ⟨under, branch⟩ := tracked.rightmost rfl
    -- the rightmost node of an odd level is its own sibling
    have sibling : siblingAt hash zero leaves p ℓ = h := by
      rw [siblingAt, under, Nat.xor_one_of_even (Nat.even_iff.mpr (by omega)), min_eq_right (by omega),
        sweeping.rightmost]
    refine ⟨fun _ => ⟨?_, ?_⟩, fun notMatched => absurd notMatched (by simp)⟩
    · rw [shiftRight_succ, under, up]
      omega
    · simp [branch, List.range_succ, sibling]
  | false =>
    obtain ⟨M, above, higher, inBlock, level, branch⟩ := tracked.stored rfl
    -- the block of p is not of this level, whose number of nodes would then be even
    have beyond : ℓ + 1 ≤ M := by
      rcases Nat.eq_or_lt_of_le above with rfl | lt
      · have even := div_two_pow_of_testBit inBlock.1
        rw [width_eq_div_succ (mod_ne_zero_of_lowest lowest higher)] at odd
        omega
      · exact lt
    exact ⟨fun matched => absurd matched (by simp), fun _ => ⟨M, beyond, higher, inBlock, level, by simpa using branch⟩⟩

variable [DecidableEq D]

/-- The sweep climbs to the top of the tree: it returns the root and keeps the flag, and with the
branch of p it ends with the siblings of p on every level below the top. -/
theorem Computation.sweep_root (pbranch : Bool) {p : Nat} (fits : leaves.length ≤ 2 ^ 31) :
    ∀ fuel m h matchh (c : Computation D), Sweeping hash zero leaves l0 m h c →
      c.count.testBit m = true → (pbranch = true → SweepTracked hash zero leaves p l0 m matchh c) →
      height leaves < m + fuel →
      ∃ c', c.sweep hash pbranch fuel m h matchh = some (treeNode hash zero leaves (height leaves) 0, c') ∧
        (c'.mutated = true ↔ SiblingsEqual hash (leafAt zero leaves) leaves.length) ∧
        (pbranch = true → c'.branch = (List.range (height leaves)).map (siblingAt hash zero leaves p))
  | 0, _, _, _, _, sweeping, _, _, below => absurd below (by have := sweeping.top; omega)
  | fuel + 1, m, h, matchh, c, sweeping, set, tracked, below => by
    have pos := pos_of_lowest lowest
    by_cases top : c.count = 1 <<< m
    · -- one node left: the top of the tree
      have one : width leaves.length m = 1 := by
        rw [sweeping.count, Nat.one_shiftLeft] at top
        exact Nat.eq_of_mul_eq_mul_right (Nat.two_pow_pos m) (by rw [top, Nat.one_mul])
      have atTop : m = height leaves :=
        le_antisymm sweeping.top ((width_le_one_iff_height_le pos m).mp (by omega))
      have root : h = treeNode hash zero leaves (height leaves) 0 := by
        rw [sweeping.rightmost, one, atTop]
      refine ⟨c, by rw [Computation.sweep_stop hash top, root], sweeping.mutated, fun isBranch => ?_⟩
      cases matchh with
      | true =>
        rw [← atTop]
        exact ((tracked isBranch).rightmost rfl).2
      | false =>
        -- a stored block of a level from the top up would be all the leaves, against l0 < M
        obtain ⟨M, above, higher, inBlock, -, -⟩ := (tracked isBranch).stored rfl
        have within := (width_le_one_iff pos m).mp (by omega)
        have large := Nat.ge_two_pow_of_testBit inBlock.1
        have grows : 2 ^ m ≤ 2 ^ M := Nat.pow_le_pow_right (by norm_num) above
        have all : leaves.length = 2 ^ M := by omega
        exact absurd (by rw [all, Nat.mod_self]) (mod_ne_zero_of_lowest lowest higher)
    · -- one turn: the rightmost node doubled, then the carry loop up to the next odd level
      have below' : m < height leaves := by
        by_contra atTop
        have := (width_le_one_iff_height_le pos m).mpr (by omega)
        have := width_pos pos m
        rw [sweeping.count, Nat.one_shiftLeft] at top
        exact top (by rw [show width leaves.length m = 1 by omega, Nat.one_mul])
      have turned := sweeping.turn lowest pbranch matchh set top
      have doubled : c.count + 1 <<< m = width leaves.length (m + 1) * 2 ^ (m + 1) := turned.count
      -- the doubled count is a multiple of 2 ^ (m + 1) below 2 ^ 32: a bit from m + 1 to 31 is set
      obtain ⟨stop, stopSet⟩ := Nat.exists_testBit_of_ne_zero
        (show c.count + 1 <<< m ≠ 0 by rw [Nat.one_shiftLeft]; have := Nat.two_pow_pos m; omega)
      have aboveStop : m + 1 ≤ stop := by
        by_contra lower
        rw [testBit_eq_false_of_mod (L := m + 1) (by rw [doubled]; exact Nat.mul_mod_left _ _)
          (by omega)] at stopSet
        exact absurd stopSet (by simp)
      have belowStop : stop < m + 1 + (31 - m) := by
        have size := width_mul_lt pos (m + 1)
        have large := Nat.ge_two_pow_of_testBit stopSet
        have levels := height_le_of_fits pos fits
        have room : 2 ^ (m + 1) ≤ 2 ^ 31 := Nat.pow_le_pow_right (by norm_num) (by omega)
        have : 2 ^ stop < 2 ^ 32 := by rw [doubled] at large; omega
        have := (Nat.pow_lt_pow_iff_right (by norm_num : 1 < 2)).mp this
        omega
      obtain ⟨next, h', matchh', c', ran, ⟨sweeping', tracked', further⟩, count, nextSet⟩ :=
        Computation.carryLoop_rule hash pbranch false
          (fun level h' matchh' c' => Sweeping hash zero leaves l0 level h' c' ∧
            (pbranch = true → SweepTracked hash zero leaves p l0 level matchh' c') ∧ m + 1 ≤ level)
          (fun _ _ _ _ ⟨sweeping, tracked, further⟩ clear =>
            ⟨sweeping.carry lowest clear, fun isBranch => by
              subst isBranch
              exact (tracked rfl).carry lowest sweeping clear, by omega⟩)
          (31 - m) (m + 1) (hash h h) matchh _
          ⟨turned, fun isBranch => by
            subst isBranch
            exact (tracked rfl).turn lowest sweeping set, le_rfl⟩
          stop aboveStop belowStop stopSet
      rw [Computation.sweep_step hash top ran]
      exact sweep_root pbranch fits fuel next h' matchh' c' sweeping' (by rw [count]; exact nextSet) tracked'
        (by omega)

end Dup

/-! ### MerkleComputation -/

section Computation

variable {D : Type} [DecidableEq D] (hash : D → D → D) (zero : D)

/-- MerkleComputation over up to 2 ^ 31 leaves returns the root of the tree, a flag that says
whether two sibling complete subtrees are equal, and with pbranch the siblings of the leaf at
branchpos on every level below the top. -/
theorem merkleComputation_eq (pbranch : Bool) (leaves : List D) (p : Nat) (pos : 0 < leaves.length)
    (fits : leaves.length ≤ 2 ^ 31) (inside : pbranch = true → p < leaves.length) :
    ∃ mutated branch, merkleComputation hash zero leaves p pbranch =
        some (treeNode hash zero leaves (height leaves) 0, mutated, branch) ∧
      (mutated = true ↔ SiblingsEqual hash (leafAt zero leaves) leaves.length) ∧
      (pbranch = true → branch = (List.range (height leaves)).map (siblingAt hash zero leaves p)) := by
  obtain ⟨c, run, filled, tracked⟩ := foldlM_addLeaf hash zero pbranch leaves p fits
  -- the sweep starts at the lowest set bit of the number of leaves
  have bits : ∃ l, leaves.length.testBit l = true := Nat.exists_testBit_of_ne_zero (by omega)
  have set : leaves.length.testBit (Nat.find bits) = true := Nat.find_spec bits
  have clear : ∀ l < Nat.find bits, leaves.length.testBit l = false := fun l lt => by
    simpa using Nat.find_min bits lt
  have lowest := lowest_of_testBit set clear
  have levels := height_le_of_fits pos fits
  have start : lowestLevel c.count 32 0 = some (Nat.find bits) := by
    rw [filled.count]
    exact lowestLevel_eq set clear 32 0 (Nat.zero_le _) (by have := le_height_of_testBit pos set; omega)
  have startSet : c.count.testBit (Nat.find bits) = true := by
    rw [filled.count]
    exact set
  obtain ⟨c', swept, mutated, branch⟩ :=
    Computation.sweep_root lowest pbranch (p := p) fits 32 (Nat.find bits)
      (c.inner (Nat.find bits)) (decide (c.matchlevel = (Nat.find bits : Int))) c
      (Sweeping.initial lowest filled) startSet
      (fun isBranch => SweepTracked.initial lowest (inside isBranch) (tracked isBranch))
      (by have := le_height_of_testBit pos set; omega)
  refine ⟨c'.mutated, c'.branch, ?_, mutated, branch⟩
  simp [merkleComputation, Nat.pos_iff_ne_zero.mp pos, run, start, swept]

/-- ComputeMerkleRoot, ComputeMerkleBranch and ComputeMerkleRootFromBranch against the reference
of merkle_tests.cpp, for up to 2 ^ 31 leaves: the same root, the same branch of every leaf, and
that branch climbs from its leaf to the root. The flag is true exactly when two sibling complete
subtrees are equal. -/
theorem computeMerkle_refines_reference (leaves : List D) (fits : leaves.length ≤ 2 ^ 31) :
    (∃ mutated, computeMerkleRoot hash zero leaves =
        some ((blockBuildMerkleTree hash zero leaves).1, mutated) ∧
      (mutated = true ↔ SiblingsEqual hash (leafAt zero leaves) leaves.length)) ∧
    ∀ p < leaves.length,
      computeMerkleBranch hash zero leaves p =
          some (blockGetMerkleBranch zero (blockBuildMerkleTree hash zero leaves).2.2 p) ∧
        computeMerkleRootFromBranch hash (leaves.getD p zero)
            (blockGetMerkleBranch zero (blockBuildMerkleTree hash zero leaves).2.2 p) p =
          (blockBuildMerkleTree hash zero leaves).1 := by
  rcases Nat.eq_zero_or_pos leaves.length with empty | pos
  · -- no leaves: uint256() and no flag on both sides
    rw [List.length_eq_zero_iff] at empty
    subst empty
    refine ⟨⟨false, ?_, ?_⟩, fun p below => absurd below (Nat.not_lt_zero p)⟩
    · simp [computeMerkleRoot, merkleComputation, blockBuildMerkleTree, buildLevels]
    · simp only [Bool.false_eq_true, false_iff]
      rintro ⟨l, j, within, -⟩
      simp at within
  obtain ⟨mutated, _, computed, flag, -⟩ :=
    merkleComputation_eq hash zero false leaves (2 ^ 32 - 1) pos fits (by simp)
  refine ⟨⟨mutated, ?_, flag⟩, fun p below => ?_⟩
  · rw [computeMerkleRoot, computed, blockBuildMerkleTree_eq hash zero pos]
    rfl
  obtain ⟨_, branch, computed, -, isBranch⟩ :=
    merkleComputation_eq hash zero true leaves p pos fits (fun _ => below)
  rw [blockGetMerkleBranch_eq hash zero pos, blockBuildMerkleTree_eq hash zero pos]
  refine ⟨by rw [computeMerkleBranch, computed, isBranch rfl]; rfl, ?_⟩
  -- the climb from the leaf ends at the top, where p >>> height is the one node 0
  have climbed := climb hash zero leaves below (height leaves) 0 (by omega)
  simp only [Nat.zero_add, Nat.shiftRight_zero] at climbed
  have topIndex : p >>> height leaves = 0 := by
    rw [Nat.shiftRight_eq_div_pow]
    exact Nat.div_eq_of_lt (lt_of_lt_of_le below (length_le_two_pow_height pos))
  rw [computeMerkleRootFromBranch, show leaves.getD p zero = treeNode hash zero leaves 0 p from rfl,
    climbed, topIndex]

/-- Two equal leaves before a third: MerkleComputation flags them, while the reference, which
only compares the last two hashes of a level, does not. -/
theorem computeMerkleRoot_flagsFirstPair :
    (computeMerkleRoot (fun a b => a + 2 * b + 1) 0 [0, 0, 1]).map Prod.snd = some true ∧
      (blockBuildMerkleTree (fun a b : Nat => a + 2 * b + 1) 0 [0, 0, 1]).2.1 = false := by
  constructor
  · decide
  · simp [blockBuildMerkleTree, buildLevels, pairLevel]

theorem computeMerkle_refines_reference_three : ([1, 2, 3] : List Nat).length ≤ 2 ^ 31 ∧
    ((∃ mutated, computeMerkleRoot (· + ·) 0 [1, 2, 3] =
        some ((blockBuildMerkleTree (· + ·) 0 [1, 2, 3]).1, mutated) ∧
      (mutated = true ↔ SiblingsEqual (· + ·) (leafAt 0 [1, 2, 3]) 3)) ∧
    ∀ p < 3,
      computeMerkleBranch (· + ·) 0 [1, 2, 3] p =
          some (blockGetMerkleBranch 0 (blockBuildMerkleTree (· + ·) 0 [1, 2, 3]).2.2 p) ∧
        computeMerkleRootFromBranch (· + ·) ([1, 2, 3].getD p 0)
            (blockGetMerkleBranch 0 (blockBuildMerkleTree (· + ·) 0 [1, 2, 3]).2.2 p) p =
          (blockBuildMerkleTree (· + ·) 0 [1, 2, 3]).1) :=
  ⟨by decide, computeMerkle_refines_reference (· + ·) 0 [1, 2, 3] (by decide)⟩

end Computation

end Sweep

end MFCoin.Consensus
