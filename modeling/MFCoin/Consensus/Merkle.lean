/-
Module: MFCoin.Consensus.Merkle
Purpose: The constant-space Merkle computation of consensus/merkle.cpp (MerkleComputation,
  ComputeMerkleRoot, ComputeMerkleBranch, ComputeMerkleRootFromBranch) next to the
  level-by-level reference of merkle_tests.cpp (BlockBuildMerkleTree, BlockGetMerkleBranch),
  both over an arbitrary digest type and hash, and the reference read as the tree of
  MerkleTree whose odd nodes are hashed with themselves.
Trusted boundary: CHash256 over two digests is the parameter hash; uint256() is zero.
Main exports: merkleComputation, computeMerkleRoot, computeMerkleBranch,
  computeMerkleRootFromBranch, branchPairs, computeMerkleRootFromBranch_leaf_eq,
  blockBuildMerkleTree, blockGetMerkleBranch
-/
import MFCoin.Lib.MerkleTree
import MFCoin.Primitives.ArithUint256
import Mathlib.Data.Nat.Log

namespace MFCoin.Consensus

open MerkleTree

section Model

variable {D : Type} [DecidableEq D] (hash : D → D → D)

/-- What MerkleComputation keeps across its loops: the leaves processed so far, the array
inner of subtree hashes by level, the level of the stored hash that depends on the matched
leaf (-1 when none), the mutation flag and the branch pushed so far. -/
structure Computation (D : Type) where
  count : Nat
  inner : Nat → D
  matchlevel : Int
  mutated : Bool
  branch : List D

/-- The branch entry of a carry at level: inner[level] when h depends on the matched leaf,
h when inner[level] does (h then depends on it too). Nothing without pbranch. -/
def Computation.record (pbranch : Bool) (level : Nat) (h : D) (matchh : Bool)
    (c : Computation D) : Bool × List D :=
  if pbranch then
    if matchh then (true, c.branch ++ [c.inner level])
    else if c.matchlevel = level then (true, c.branch ++ [h])
    else (false, c.branch)
  else (matchh, c.branch)

/-- The body of the carry loops at level: the branch entry, two equal halves noted when
flag (the loop over the leaves notes them, the final sweep does not), and the pair hashed. -/
def Computation.carry (pbranch flag : Bool) (level : Nat) (h : D) (matchh : Bool)
    (c : Computation D) : D × Bool × Computation D :=
  let recorded := c.record pbranch level h matchh
  (hash (c.inner level) h, recorded.1,
    { c with mutated := c.mutated || (flag && c.inner level == h), branch := recorded.2 })

section Carry

variable {pbranch flag : Bool} {level : Nat} {h : D} {matchh : Bool} {c : Computation D}

@[simp] theorem Computation.carry_hash :
    (c.carry hash pbranch flag level h matchh).1 = hash (c.inner level) h := rfl

@[simp] theorem Computation.carry_matchh :
    (c.carry hash pbranch flag level h matchh).2.1 = (c.record pbranch level h matchh).1 := rfl

@[simp] theorem Computation.carry_count :
    (c.carry hash pbranch flag level h matchh).2.2.count = c.count := rfl

@[simp] theorem Computation.carry_inner :
    (c.carry hash pbranch flag level h matchh).2.2.inner = c.inner := rfl

@[simp] theorem Computation.carry_matchlevel :
    (c.carry hash pbranch flag level h matchh).2.2.matchlevel = c.matchlevel := rfl

@[simp] theorem Computation.carry_mutated :
    (c.carry hash pbranch flag level h matchh).2.2.mutated = (c.mutated || (flag && c.inner level == h)) :=
  rfl

@[simp] theorem Computation.carry_branch :
    (c.carry hash pbranch flag level h matchh).2.2.branch = (c.record pbranch level h matchh).2 := rfl

end Carry

/-- while (!(count & (1 << level))) { carry; level++; }: the level of the next set bit of
count with the hash carried up to it; none when the level would pass the 32 entries of
inner, where the shift is undefined. The fuel is the number of levels left. -/
def Computation.carryLoop (pbranch flag : Bool) : Nat → Nat → D → Bool → Computation D →
    Option (Nat × D × Bool × Computation D)
  | 0, _, _, _, _ => none
  | fuel + 1, level, h, matchh, c =>
    if c.count &&& 1 <<< level = 0 then
      let carried := c.carry hash pbranch flag level h matchh
      carryLoop pbranch flag fuel (level + 1) carried.1 carried.2.1 carried.2.2
    else some (level, h, matchh, c)

/-- One turn of the loop over the leaves: count the leaf, carry it up, store the result at
the level reached and remember that level when it holds the matched leaf. -/
def Computation.addLeaf (pbranch : Bool) (branchpos : Nat) (c : Computation D) (leaf : D) :
    Option (Computation D) := do
  let matchh := decide (c.count = branchpos)
  let c := { c with count := c.count + 1 }
  let (level, h, matchh, c) ← c.carryLoop hash pbranch true 32 0 leaf matchh
  return { c with inner := Function.update c.inner level h,
                  matchlevel := if matchh then level else c.matchlevel }

/-- addLeaf once its carry loop has stopped at level with h: h stored there. -/
theorem Computation.addLeaf_eq {pbranch : Bool} {branchpos : Nat} {c c' : Computation D} {leaf h : D}
    {level : Nat} {matchh : Bool}
    (carried : ({ c with count := c.count + 1 } : Computation D).carryLoop hash pbranch true 32 0 leaf
      (decide (c.count = branchpos)) = some (level, h, matchh, c')) :
    c.addLeaf hash pbranch branchpos leaf =
      some { c' with inner := Function.update c'.inner level h,
                     matchlevel := if matchh then level else c'.matchlevel } := by
  simp [addLeaf, carried]

/-- while (!(count & (1 << level))) level++. -/
def lowestLevel (count : Nat) : Nat → Nat → Option Nat
  | 0, _ => none
  | fuel + 1, level =>
    if count &&& 1 <<< level = 0 then lowestLevel count fuel (level + 1) else some level

/-- The final sweep up the rightmost branch: while count is not a power of two, hash h with
itself (the odd node of its level), count as if its twin existed, and carry up. -/
def Computation.sweep (pbranch : Bool) : Nat → Nat → D → Bool → Computation D →
    Option (D × Computation D)
  | 0, _, _, _, _ => none
  | fuel + 1, level, h, matchh, c =>
    if c.count = 1 <<< level then some (h, c)
    else do
      let c := { c with count := c.count + 1 <<< level,
                        branch := if pbranch && matchh then c.branch ++ [h] else c.branch }
      let (level, h, matchh, c) ←
        c.carryLoop hash pbranch false (31 - level) (level + 1) (hash h h) matchh
      sweep pbranch fuel level h matchh c

/-- The sweep ends when count is the power of two of its level. -/
theorem Computation.sweep_stop {pbranch : Bool} {fuel level : Nat} {h : D} {matchh : Bool}
    {c : Computation D} (top : c.count = 1 <<< level) :
    c.sweep hash pbranch (fuel + 1) level h matchh = some (h, c) := by
  rw [sweep, if_pos top]

/-- Otherwise one turn: h hashed with itself, count as if its twin existed, the carry loop. -/
theorem Computation.sweep_step {pbranch : Bool} {fuel level next : Nat} {h h' : D}
    {matchh matchh' : Bool} {c c' : Computation D} (notTop : c.count ≠ 1 <<< level)
    (carried : ({ c with count := c.count + 1 <<< level,
                         branch := if pbranch && matchh then c.branch ++ [h] else c.branch } :
        Computation D).carryLoop
      hash pbranch false (31 - level) (level + 1) (hash h h) matchh = some (next, h', matchh', c')) :
    c.sweep hash pbranch (fuel + 1) level h matchh = c'.sweep hash pbranch fuel next h' matchh' := by
  rw [sweep, if_neg notTop]
  simp only [carried]
  rfl

/-- MerkleComputation(leaves, proot, pmutated, branchpos, pbranch): the root, the mutation
flag and the branch; none where the C++ is undefined. inner starts zeroed, as uint256's
constructor leaves it. -/
def merkleComputation (zero : D) (leaves : List D) (branchpos : Nat) (pbranch : Bool) :
    Option (D × Bool × List D) :=
  if leaves.length = 0 then some (zero, false, [])
  else do
    let c ← leaves.foldlM (fun (c : Computation D) leaf => c.addLeaf hash pbranch branchpos leaf)
      ⟨0, fun _ => zero, -1, false, []⟩
    let level ← lowestLevel c.count 32 0
    let (h, c) ← c.sweep hash pbranch 32 level (c.inner level) (c.matchlevel = level)
    return (h, c.mutated, c.branch)

/-- ComputeMerkleRoot: no branch, and branchpos -1 as a uint32_t. -/
def computeMerkleRoot (zero : D) (leaves : List D) : Option (D × Bool) :=
  (merkleComputation hash zero leaves (2 ^ 32 - 1) false).map fun r => (r.1, r.2.1)

/-- ComputeMerkleBranch. -/
def computeMerkleBranch (zero : D) (leaves : List D) (position : Nat) : Option (List D) :=
  (merkleComputation hash zero leaves position true).map fun r => r.2.2

/-- ComputeMerkleRootFromBranch: climb from the leaf, the bit of nIndex saying on which
side each branch entry stands. -/
def computeMerkleRootFromBranch (leaf : D) (vMerkleBranch : List D) (nIndex : Nat) : D :=
  (vMerkleBranch.foldl (fun (acc : D × Nat) it =>
    (if acc.2 &&& 1 = 1 then hash it acc.1 else hash acc.1 it, acc.2 >>> 1)) (leaf, nIndex)).1

/-! ### The reference of merkle_tests.cpp -/

/-- The inner loop of BlockBuildMerkleTree over one level: the pairs (i, min (i + 1)
(nSize - 1)) hashed, and whether the last pair, at the end of the level, holds two equal
hashes. -/
def pairLevel : List D → List D × Bool
  | [] => ([], false)
  | [a] => ([hash a a], false)
  | [a, b] => ([hash a b], a == b)
  | a :: b :: c :: rest => ((hash a b) :: (pairLevel (c :: rest)).1, (pairLevel (c :: rest)).2)

theorem length_pairLevel : ∀ level : List D, (pairLevel hash level).1.length = (level.length + 1) / 2
  | [] => by simp [pairLevel]
  | [_] => by simp [pairLevel]
  | [_, _] => by simp [pairLevel]
  | _ :: _ :: c :: rest => by
    simp only [pairLevel, List.length_cons, length_pairLevel (c :: rest)]
    omega

/-- The levels BlockBuildMerkleTree pushes into vMerkleTree, from the leaves up to the level
of width one (for nSize = n; nSize > 1; nSize = (nSize + 1) / 2), with the flag. -/
def buildLevels (level : List D) : List (List D) × Bool :=
  if level.length ≤ 1 then ([level], false)
  else
    let up := pairLevel hash level
    let rest := buildLevels up.1
    (level :: rest.1, up.2 || rest.2)
termination_by level.length
decreasing_by
  rw [length_pairLevel]
  omega

/-- BlockBuildMerkleTree: the last hash of vMerkleTree, uint256() when it is empty, the flag,
and vMerkleTree as its levels one after the other. -/
def blockBuildMerkleTree (zero : D) (leaves : List D) : D × Bool × List (List D) :=
  let built := buildLevels hash leaves
  (built.1.flatten.getLast?.getD zero, built.2, built.1)

/-- BlockGetMerkleBranch: on each level of width above one, the hash at
min (nIndex ^ 1, nSize - 1). -/
def blockGetMerkleBranch (zero : D) : List (List D) → Nat → List D
  | [], _ => []
  | level :: rest, nIndex =>
    if level.length ≤ 1 then []
    else level.getD (min (nIndex ^^^ 1) (level.length - 1)) zero ::
      blockGetMerkleBranch zero rest (nIndex >>> 1)

end Model

/-! ### What a branch climb hashes -/

section Climb

variable {D : Type} (hash : D → D → D)

theorem computeMerkleRootFromBranch_nil (leaf : D) (nIndex : Nat) :
    computeMerkleRootFromBranch hash leaf [] nIndex = leaf := rfl

theorem computeMerkleRootFromBranch_cons (leaf it : D) (rest : List D) (nIndex : Nat) :
    computeMerkleRootFromBranch hash leaf (it :: rest) nIndex =
      computeMerkleRootFromBranch hash (if nIndex &&& 1 = 1 then hash it leaf else hash leaf it)
        rest (nIndex >>> 1) := rfl

/-- The pairs ComputeMerkleRootFromBranch hashes, level by level: the running hash and the
branch entry, the entry first where the bit of the index is set. -/
def branchPairs (leaf : D) : List D → Nat → List (D × D)
  | [], _ => []
  | it :: rest, nIndex =>
    let pair := if nIndex &&& 1 = 1 then (it, leaf) else (leaf, it)
    pair :: branchPairs (hash pair.1 pair.2) rest (nIndex >>> 1)

/-- The root pins the leaf: two climbs of one length from one index that reach one root start
from one leaf, unless hash maps two different pairs they hash to one value. -/
theorem computeMerkleRootFromBranch_leaf_eq :
    ∀ (branch branch' : List D) (leaf leaf' : D) (nIndex : Nat), branch.length = branch'.length →
      (∀ x ∈ branchPairs hash leaf branch nIndex, ∀ y ∈ branchPairs hash leaf' branch' nIndex,
        hash x.1 x.2 = hash y.1 y.2 → x = y) →
      computeMerkleRootFromBranch hash leaf branch nIndex =
        computeMerkleRootFromBranch hash leaf' branch' nIndex → leaf = leaf'
  | [], [], _, _, _, _, _, root => root
  | it :: rest, it' :: rest', leaf, leaf', nIndex, length, injective, root => by
    rw [computeMerkleRootFromBranch_cons, computeMerkleRootFromBranch_cons] at root
    -- the pairs hashed at this level, on the side the bit of the index says; the rest of the
    -- climb pins their hashes, and the hash pins the pairs
    by_cases bit : nIndex &&& 1 = 1
    · simp only [branchPairs, bit, if_true, List.mem_cons] at injective root
      have above := computeMerkleRootFromBranch_leaf_eq rest rest' _ _ (nIndex >>> 1)
        (Nat.succ.inj length) (fun x hx y hy => injective x (.inr hx) y (.inr hy)) root
      exact (Prod.mk.inj (injective _ (.inl rfl) _ (.inl rfl) above)).2
    · simp only [branchPairs, bit, if_false, List.mem_cons] at injective root
      have above := computeMerkleRootFromBranch_leaf_eq rest rest' _ _ (nIndex >>> 1)
        (Nat.succ.inj length) (fun x hx y hy => injective x (.inr hx) y (.inr hy)) root
      exact (Prod.mk.inj (injective _ (.inl rfl) _ (.inl rfl) above)).1

end Climb

/-! ### The tree of the leaves -/

section Tree

variable {D : Type} (hash : D → D → D) (zero : D)

/-- Leaf i of the list, uint256() past its end. -/
def leafAt (leaves : List D) (i : Nat) : D := leaves.getD i zero

/-- Bitcoin's odd node: hashed with itself. -/
def dup (d : D) : D := hash d d

/-- Node j of level l of the tree over leaves. -/
abbrev treeNode (leaves : List D) : Nat → Nat → D :=
  node hash (dup hash) (leafAt zero leaves) leaves.length

/-- Level l of the tree over leaves, as a list. -/
def treeLevel (leaves : List D) (l : Nat) : List D :=
  (List.range (width leaves.length l)).map (treeNode hash zero leaves l)

@[simp] theorem length_treeLevel (leaves : List D) (l : Nat) :
    (treeLevel hash zero leaves l).length = width leaves.length l := by
  simp [treeLevel]

theorem getD_treeLevel (leaves : List D) {l j : Nat} (inside : j < width leaves.length l) :
    (treeLevel hash zero leaves l).getD j zero = treeNode hash zero leaves l j := by
  simp [treeLevel, List.getD_eq_getElem?_getD, inside]

theorem treeLevel_zero (leaves : List D) : treeLevel hash zero leaves 0 = leaves := by
  apply List.ext_getElem (by simp [width])
  intro j inside _
  rw [← List.getD_eq_getElem _ zero, getD_treeLevel hash zero leaves (by simpa [width] using inside)]
  simp [node, leafAt, List.getD_eq_getElem?_getD, List.getElem?_eq_getElem (by simpa [width] using inside)]

/-- The number of levels above the leaves: the least l with n ≤ 2 ^ l. -/
def height (leaves : List D) : Nat := Nat.clog 2 leaves.length

theorem width_le_one_iff_height_le {leaves : List D} (pos : 0 < leaves.length) (l : Nat) :
    width leaves.length l ≤ 1 ↔ height leaves ≤ l := by
  rw [width_le_one_iff pos, height, Nat.clog_le_iff_le_pow (by norm_num)]

/-- The top level of the tree is its one node. -/
theorem treeLevel_height {leaves : List D} (pos : 0 < leaves.length) :
    treeLevel hash zero leaves (height leaves) = [treeNode hash zero leaves (height leaves) 0] := by
  have one : width leaves.length (height leaves) = 1 := by
    have := (width_le_one_iff_height_le pos (height leaves)).mpr le_rfl
    have := width_pos pos (height leaves)
    omega
  simp [treeLevel, one]

/-- The sibling of position p on level l, as BlockGetMerkleBranch reads it: the node at
min (p >>> l ^ 1, width - 1), the odd last node itself when p's node is it. -/
def siblingAt (leaves : List D) (p l : Nat) : D :=
  treeNode hash zero leaves l (min ((p >>> l) ^^^ 1) (width leaves.length l - 1))

/-- One step of the climb from position p: the node of p with its sibling, on the side the
bit of the index says, is the node of p one level up. -/
theorem climb_step (leaves : List D) {p l : Nat} (inside : p >>> l < width leaves.length l) :
    (if (p >>> l) &&& 1 = 1 then
        hash (siblingAt hash zero leaves p l) (treeNode hash zero leaves l (p >>> l))
      else hash (treeNode hash zero leaves l (p >>> l)) (siblingAt hash zero leaves p l)) =
      treeNode hash zero leaves (l + 1) (p >>> (l + 1)) := by
  rw [siblingAt, Nat.shiftRight_add, Nat.shiftRight_eq_div_pow _ 1, Nat.and_one_is_mod]
  generalize p >>> l = j at inside ⊢
  rw [treeNode, node, pow_one]
  rcases Nat.even_or_odd j with even | odd
  · have half : 2 * (j / 2) = j := Nat.two_mul_div_two_of_even even
    rw [if_neg (by rw [Nat.even_iff] at even; omega), Nat.xor_one_of_even even, half]
    by_cases paired : j + 1 < width leaves.length l
    · rw [if_pos (by omega), min_eq_left (by omega)]
    · rw [if_neg (by omega), min_eq_right (by omega), show width leaves.length l - 1 = j by omega, dup]
  · have half : 2 * (j / 2) + 1 = j := Nat.two_mul_div_two_add_one_of_odd odd
    rw [if_pos (by rw [Nat.odd_iff] at odd; omega), Nat.xor_one_of_odd odd, if_pos (by omega),
      min_eq_left (by omega), half, show 2 * (j / 2) = j - 1 by omega]

/-- Climbing from position p with the siblings of the levels l, ..., l + d - 1 gives the node
of p at level l + d. -/
theorem climb (leaves : List D) {p : Nat} (below : p < leaves.length) :
    ∀ d l, l + d ≤ height leaves →
      ((List.range d).map (fun i => siblingAt hash zero leaves p (l + i))).foldl
        (fun (acc : D × Nat) it =>
          (if acc.2 &&& 1 = 1 then hash it acc.1 else hash acc.1 it, acc.2 >>> 1))
        (treeNode hash zero leaves l (p >>> l), p >>> l) =
      (treeNode hash zero leaves (l + d) (p >>> (l + d)), p >>> (l + d))
  | 0, l, _ => by simp
  | d + 1, l, fits => by
    have inside : p >>> l < width leaves.length l := by
      rw [lt_width_iff, Nat.shiftRight_eq_div_pow]
      exact lt_of_le_of_lt (Nat.div_mul_le_self p _) below
    rw [List.range_succ_eq_map, List.map_cons, List.foldl_cons, Nat.add_zero,
      climb_step hash zero leaves inside, Nat.shiftRight_add, ← Nat.shiftRight_add,
      List.map_map]
    have next := climb leaves below d (l + 1) (by omega)
    simp only [Function.comp_def, Nat.succ_eq_add_one, ← Nat.add_assoc, Nat.add_right_comm l _ 1]
      at next ⊢
    exact next

/-- BlockGetMerkleBranch over the levels of the tree reads the sibling of p on each level
below the top. -/
theorem blockGetMerkleBranch_treeLevel {leaves : List D} (pos : 0 < leaves.length) :
    ∀ d l q, l + d = height leaves →
      blockGetMerkleBranch zero ((List.range (d + 1)).map fun i => treeLevel hash zero leaves (l + i)) q =
        (List.range d).map fun i => treeNode hash zero leaves (l + i)
          (min ((q >>> i) ^^^ 1) (width leaves.length (l + i) - 1))
  | 0, l, q, top => by
    have single : width leaves.length l ≤ 1 := by
      rw [width_le_one_iff_height_le pos]
      omega
    simp [blockGetMerkleBranch, single]
  | d + 1, l, q, below => by
    have wide : ¬ (treeLevel hash zero leaves l).length ≤ 1 := by
      rw [length_treeLevel, width_le_one_iff_height_le pos]
      omega
    rw [List.range_succ_eq_map, List.map_cons, blockGetMerkleBranch, Nat.add_zero, if_neg wide,
      List.map_map]
    have rest := blockGetMerkleBranch_treeLevel pos d (l + 1) (q >>> 1) (by omega)
    simp only [← Nat.shiftRight_add, Nat.add_comm 1] at rest
    have two : 2 ≤ width leaves.length l := by
      rw [length_treeLevel] at wide
      omega
    rw [length_treeLevel, getD_treeLevel hash zero leaves (lt_of_le_of_lt (min_le_right _ _) (by omega))]
    conv_rhs => rw [List.range_succ_eq_map, List.map_cons, List.map_map]
    simp only [Function.comp_def, Nat.succ_eq_add_one, ← Nat.add_assoc, Nat.add_right_comm l _ 1,
      Nat.add_zero, Nat.shiftRight_zero]
    rw [rest]

end Tree

/-! ### The reference is the tree whose odd nodes are hashed with themselves -/

section Reference

variable {D : Type} [DecidableEq D] (hash : D → D → D) (zero : D)

/-- The reference's test at level l: an even width whose last two nodes are equal. -/
def levelMutated (leaves : List D) (l : Nat) : Bool :=
  decide (2 ≤ width leaves.length l ∧ width leaves.length l % 2 = 0 ∧
    treeNode hash zero leaves l (width leaves.length l - 2) =
      treeNode hash zero leaves l (width leaves.length l - 1))

theorem getD_pairLevel : ∀ (level : List D) (j : Nat), 2 * j < level.length →
    (pairLevel hash level).1.getD j zero = hash (level.getD (2 * j) zero)
      (level.getD (if 2 * j + 1 < level.length then 2 * j + 1 else 2 * j) zero)
  | [], _, inside => absurd inside (by simp)
  | [a], j, inside => by
    obtain rfl : j = 0 := by simp at inside; omega
    simp [pairLevel]
  | [a, b], j, inside => by
    obtain rfl : j = 0 := by simp at inside; omega
    simp [pairLevel]
  | a :: b :: c :: rest, 0, _ => by simp [pairLevel]
  | a :: b :: c :: rest, j + 1, inside => by
    simp only [List.length_cons] at inside
    simp only [pairLevel, List.getD_cons_succ]
    rw [getD_pairLevel (c :: rest) j (by simp; omega)]
    simp only [List.length_cons, show 2 * (j + 1) = 2 * j + 1 + 1 by ring, List.getD_cons_succ]
    split_ifs <;> first | rfl | omega

theorem pairLevel_flag : ∀ level : List D, (pairLevel hash level).2 =
    decide (2 ≤ level.length ∧ level.length % 2 = 0 ∧
      level.getD (level.length - 2) zero = level.getD (level.length - 1) zero)
  | [] => by simp [pairLevel]
  | [a] => by simp [pairLevel]
  | [a, b] => by simp [pairLevel, Bool.beq_eq_decide_eq]
  | a :: b :: c :: rest => by
    simp only [pairLevel]
    rw [pairLevel_flag (c :: rest)]
    -- the level is the rest with two more nodes in front: the same parity and the same end
    cases rest with
    | nil => simp
    | cons d rest =>
      simp only [List.length_cons, List.getD_cons_succ, show rest.length + 1 + 1 + 1 + 1 - 2 =
        rest.length + 1 + 1 by omega, show rest.length + 1 + 1 + 1 + 1 - 1 = rest.length + 1 + 1 + 1
        by omega]
      simp only [show rest.length + 1 + 1 - 2 = rest.length by omega,
        show rest.length + 1 + 1 - 1 = rest.length + 1 by omega,
        show (rest.length + 1 + 1 + 1 + 1) % 2 = (rest.length + 1 + 1) % 2 by omega]
      simp

/-- Pairing a level of the tree gives the level above. -/
theorem pairLevel_treeLevel (leaves : List D) (l : Nat) :
    (pairLevel hash (treeLevel hash zero leaves l)).1 = treeLevel hash zero leaves (l + 1) := by
  apply List.ext_getElem (by simp [length_pairLevel, width])
  intro j inside _
  rw [length_pairLevel, length_treeLevel] at inside
  have pair : 2 * j < width leaves.length l := by omega
  rw [← List.getD_eq_getElem _ zero, ← List.getD_eq_getElem _ zero,
    getD_pairLevel hash zero _ j (by simpa using pair), length_treeLevel,
    getD_treeLevel hash zero leaves (show j < width leaves.length (l + 1) by simp only [width]; omega),
    getD_treeLevel hash zero leaves pair]
  by_cases paired : 2 * j + 1 < width leaves.length l
  · rw [if_pos paired, getD_treeLevel hash zero leaves paired, treeNode, node, if_pos paired]
  · rw [if_neg paired, getD_treeLevel hash zero leaves pair, treeNode, node, if_neg paired, dup]

theorem pairLevel_treeLevel_flag (leaves : List D) (l : Nat) :
    (pairLevel hash (treeLevel hash zero leaves l)).2 = levelMutated hash zero leaves l := by
  rw [pairLevel_flag, length_treeLevel, levelMutated]
  by_cases two : 2 ≤ width leaves.length l
  · rw [getD_treeLevel hash zero leaves (by omega), getD_treeLevel hash zero leaves (by omega)]
  · simp [two]

/-- BlockBuildMerkleTree's levels are the levels of the tree, up to its height, and its flag
is the test of each level below the top. -/
theorem buildLevels_treeLevel {leaves : List D} (pos : 0 < leaves.length) :
    ∀ d l, l + d = height leaves → buildLevels hash (treeLevel hash zero leaves l) =
      ((List.range (d + 1)).map fun i => treeLevel hash zero leaves (l + i),
        (List.range d).any fun i => levelMutated hash zero leaves (l + i))
  | 0, l, top => by
    have single : (treeLevel hash zero leaves l).length ≤ 1 := by
      rw [length_treeLevel, width_le_one_iff_height_le pos]
      omega
    rw [buildLevels, if_pos single]
    simp
  | d + 1, l, below => by
    have wide : ¬ (treeLevel hash zero leaves l).length ≤ 1 := by
      rw [length_treeLevel, width_le_one_iff_height_le pos]
      omega
    rw [buildLevels, if_neg wide]
    simp only [pairLevel_treeLevel, pairLevel_treeLevel_flag,
      buildLevels_treeLevel pos d (l + 1) (by omega)]
    conv_rhs => rw [List.range_succ_eq_map (n := d), List.range_succ_eq_map (n := d + 1)]
    simp only [List.map_cons, List.map_map, List.any_cons, List.any_map, Function.comp_def,
      Nat.add_zero, Nat.succ_eq_add_one, ← Nat.add_assoc, Nat.add_right_comm l _ 1]

/-- BlockBuildMerkleTree returns the top node of the tree, the test of every level below the
top, and the levels of the tree. -/
theorem blockBuildMerkleTree_eq {leaves : List D} (pos : 0 < leaves.length) :
    blockBuildMerkleTree hash zero leaves =
      (treeNode hash zero leaves (height leaves) 0,
        (List.range (height leaves)).any (levelMutated hash zero leaves),
        (List.range (height leaves + 1)).map (treeLevel hash zero leaves)) := by
  have built := buildLevels_treeLevel hash zero pos (height leaves) 0 (Nat.zero_add _)
  rw [treeLevel_zero] at built
  simp only [Nat.zero_add] at built
  rw [blockBuildMerkleTree, built, List.range_succ, List.map_append, List.flatten_append,
    List.map_singleton, List.flatten_singleton, treeLevel_height hash zero pos]
  simp

/-- The reference branch of p is the list of the siblings of p on the levels below the top. -/
theorem blockGetMerkleBranch_eq {leaves : List D} (pos : 0 < leaves.length) (p : Nat) :
    blockGetMerkleBranch zero (blockBuildMerkleTree hash zero leaves).2.2 p =
      (List.range (height leaves)).map (siblingAt hash zero leaves p) := by
  rw [blockBuildMerkleTree_eq hash zero pos]
  have branch := blockGetMerkleBranch_treeLevel hash zero pos (height leaves) 0 p (Nat.zero_add _)
  simp only [Nat.zero_add] at branch
  rw [branch]
  rfl

end Reference

end MFCoin.Consensus
