/-
Module: MFCoin.Mtp.OrderedMerkleTree
Purpose: The ordered Merkle tree of the MTP proof of work (crypto/MerkleTreeProof/merkle-tree.cpp
  with preserveOrder): its layers, getRoot, getProofOrdered and the rewritten
  checkProofOrdered, which recovers the layer of each proof element from the index alone. The
  layers are the levels of the tree of MerkleTree whose odd nodes are carried up unhashed.
Trusted boundary: combinedHash(first, second, true), the hash of the two 16-byte buffers one
  after the other, is the parameter combine; the elements are abstract, so the checks of their
  size in the constructor are left out.
Main exports: getNextLayer, getLayers, OrderedTree.build, OrderedTree.getRoot,
  OrderedTree.getProofOrdered, checkProofOrdered
-/
import MFCoin.Lib.MerkleTree
import Mathlib.Data.Nat.Pairing

namespace MFCoin.Mtp

open MerkleTree

section Model

variable {D : Type} (combine : D → D → D)

/-- getNextLayer: each pair of the layer combined in order, an odd last hash carried up alone. -/
def getNextLayer : List D → List D
  | a :: b :: rest => combine a b :: getNextLayer rest
  | rest => rest

theorem length_getNextLayer : ∀ layer : List D, (getNextLayer combine layer).length = (layer.length + 1) / 2
  | a :: b :: rest => by
    simp only [getNextLayer, List.length_cons, length_getNextLayer rest]
    omega
  | [] => by simp [getNextLayer]
  | [_] => by simp [getNextLayer]

/-- getLayers: the elements, then the next layer while the last one has more than one hash. -/
def getLayers (layer : List D) : List (List D) :=
  if layer.length ≤ 1 then [layer] else layer :: getLayers (getNextLayer combine layer)
termination_by layer.length
decreasing_by
  rw [length_getNextLayer]
  omega

theorem getLayers_of_le_one {layer : List D} (single : layer.length ≤ 1) :
    getLayers combine layer = [layer] := by
  rw [getLayers, if_pos single]

theorem getLayers_of_one_lt {layer : List D} (wide : 1 < layer.length) :
    getLayers combine layer = layer :: getLayers combine (getNextLayer combine layer) := by
  rw [getLayers, if_neg (by omega)]

/-- MerkleTree(elements, true): the elements in their order and the layers over them. -/
structure OrderedTree (D : Type) where
  elements : List D
  layers : List (List D)

/-- The constructor: an empty list throws. -/
def OrderedTree.build (elements : List D) : Except String (OrderedTree D) :=
  if elements.isEmpty then .error "Empty elements list" else .ok ⟨elements, getLayers combine elements⟩

/-- getRoot: the first hash of the last layer. -/
def OrderedTree.getRoot (tree : OrderedTree D) : Option D :=
  tree.layers.getLast?.bind List.head?

/-- getPair: the other hash of the pair of index in a layer, none past the end of the layer. -/
def getPair (layer : List D) (index : Nat) : Option D :=
  layer[if index &&& 1 = 1 then index - 1 else index + 1]?

/-- getProof(index): the pair of the index on each layer that has one, from the elements up. -/
def getProof : List (List D) → Nat → List D
  | [], _ => []
  | layer :: rest, index => (getPair layer index).toList ++ getProof rest (index / 2)

/-- getProofOrdered(element, index), index counted from 1. -/
def OrderedTree.getProofOrdered [DecidableEq D] (tree : OrderedTree D) (element : D) (index : Nat) :
    Except String (List D) :=
  if index = 0 then .error "Index is zero"
  else if tree.elements[index - 1]? ≠ some element then .error "Index does not point to element"
  else .ok (getProof tree.layers (index - 1))

/-- The inner while of checkProofOrdered: an even index of at least 2 ^ remaining is halved, read
as the index of a higher layer. Each turn halves an index of at least one, so fuel index does
not run out. -/
def adjustFrom (remaining : Nat) : Nat → Nat → Nat
  | 0, index => index
  | fuel + 1, index =>
    if index &&& 1 = 0 ∧ 1 <<< remaining ≤ index then adjustFrom remaining fuel (index / 2) else index

def adjust (remaining index : Nat) : Nat := adjustFrom remaining index index

/-- The loop of checkProofOrdered over the proof, remaining elements included. -/
def checkLoop : List D → D → Nat → D
  | [], tempHash, _ => tempHash
  | it :: rest, tempHash, index =>
    let index := adjust (rest.length + 1) index
    checkLoop rest (if index &&& 1 = 1 then combine it tempHash else combine tempHash it) (index / 2)

/-- checkProofOrdered(proof, root, element, index), index counted from 1. -/
def checkProofOrdered [DecidableEq D] (proof : List D) (root element : D) (index : Nat) : Bool :=
  checkLoop combine proof element (index - 1) == root

end Model

/-! ### The layers are the levels of the tree whose odd nodes go up unhashed -/

section Levels

variable {D : Type} (combine : D → D → D) (zero : D)

/-- Node j of level l of the tree over the elements in which an odd last node is carried up
as it is. -/
abbrev orderedNode (elements : List D) : Nat → Nat → D :=
  node combine id (fun i => elements.getD i zero) elements.length

/-- Level l of that tree. -/
def orderedLevel (elements : List D) (l : Nat) : List D :=
  (List.range (width elements.length l)).map (orderedNode combine zero elements l)

@[simp] theorem length_orderedLevel (elements : List D) (l : Nat) :
    (orderedLevel combine zero elements l).length = width elements.length l := by
  simp [orderedLevel]

theorem getD_orderedLevel (elements : List D) {l j : Nat} (inside : j < width elements.length l) :
    (orderedLevel combine zero elements l).getD j zero = orderedNode combine zero elements l j := by
  simp [orderedLevel, List.getD_eq_getElem?_getD, inside]

theorem orderedLevel_zero (elements : List D) : orderedLevel combine zero elements 0 = elements := by
  apply List.ext_getElem (by simp [width])
  intro j inside _
  rw [← List.getD_eq_getElem _ zero,
    getD_orderedLevel combine zero elements (by simpa [width] using inside), orderedNode, node,
    List.getD_eq_getElem]

theorem getD_getNextLayer : ∀ (layer : List D) (j : Nat), 2 * j < layer.length →
    (getNextLayer combine layer).getD j zero =
      if 2 * j + 1 < layer.length then combine (layer.getD (2 * j) zero) (layer.getD (2 * j + 1) zero)
      else layer.getD (2 * j) zero
  | [], _, inside => absurd inside (by simp)
  | [a], j, inside => by
    obtain rfl : j = 0 := by simp at inside; omega
    simp [getNextLayer]
  | a :: b :: rest, 0, _ => by simp [getNextLayer]
  | a :: b :: rest, j + 1, inside => by
    simp only [List.length_cons] at inside
    simp only [getNextLayer, List.getD_cons_succ]
    rw [getD_getNextLayer rest j (by omega)]
    simp only [List.length_cons, show 2 * (j + 1) = 2 * j + 1 + 1 by ring, List.getD_cons_succ]
    split_ifs <;> first | rfl | omega

/-- getNextLayer over a level of the tree is the level above. -/
theorem getNextLayer_orderedLevel (elements : List D) (l : Nat) :
    getNextLayer combine (orderedLevel combine zero elements l) = orderedLevel combine zero elements (l + 1) := by
  apply List.ext_getElem (by simp [length_getNextLayer, width])
  intro j inside _
  rw [length_getNextLayer, length_orderedLevel] at inside
  have pair : 2 * j < width elements.length l := by omega
  rw [← List.getD_eq_getElem _ zero, ← List.getD_eq_getElem _ zero,
    getD_getNextLayer combine zero _ j (by simpa using pair), length_orderedLevel,
    getD_orderedLevel combine zero elements (show j < width elements.length (l + 1) by simp only [width]; omega),
    getD_orderedLevel combine zero elements pair]
  by_cases paired : 2 * j + 1 < width elements.length l
  · rw [if_pos paired, getD_orderedLevel combine zero elements paired, orderedNode, node, if_pos paired]
  · rw [if_neg paired, orderedNode, node, if_neg paired, id]

/-- getLayers from level l is the list of the levels up to the height of the tree. -/
theorem getLayers_orderedLevel {elements : List D} (pos : 0 < elements.length) :
    ∀ d l, l + d = Nat.clog 2 elements.length → getLayers combine (orderedLevel combine zero elements l) =
      (List.range (d + 1)).map fun i => orderedLevel combine zero elements (l + i)
  | 0, l, top => by
    rw [getLayers_of_le_one combine (by rw [length_orderedLevel, width_le_one_iff_clog_le pos]; omega)]
    simp
  | d + 1, l, below => by
    have wide : 1 < (orderedLevel combine zero elements l).length := by
      have := (width_le_one_iff_clog_le pos l).not.mpr (by omega)
      rw [length_orderedLevel]
      omega
    rw [getLayers_of_one_lt combine wide, getNextLayer_orderedLevel,
      getLayers_orderedLevel pos d (l + 1) (by omega)]
    conv_rhs => rw [List.range_succ_eq_map, List.map_cons, List.map_map]
    simp only [Function.comp_def, Nat.add_zero, Nat.succ_eq_add_one, ← Nat.add_assoc, Nat.add_right_comm l _ 1]

/-- The constructor over a non-empty list builds the levels of the tree, and its root is the
top node. -/
theorem OrderedTree.build_levels {elements : List D} (pos : 0 < elements.length) :
    OrderedTree.build combine elements = .ok ⟨elements,
      (List.range (Nat.clog 2 elements.length + 1)).map (orderedLevel combine zero elements)⟩ := by
  have layers := getLayers_orderedLevel combine zero pos (Nat.clog 2 elements.length) 0 (Nat.zero_add _)
  rw [orderedLevel_zero] at layers
  simp only [Nat.zero_add] at layers
  rw [OrderedTree.build, if_neg (by simpa [List.isEmpty_iff] using List.ne_nil_of_length_pos pos), layers]

theorem OrderedTree.getRoot_levels {elements : List D} (pos : 0 < elements.length) :
    (⟨elements, (List.range (Nat.clog 2 elements.length + 1)).map (orderedLevel combine zero elements)⟩ :
      OrderedTree D).getRoot = some (orderedNode combine zero elements (Nat.clog 2 elements.length) 0) := by
  have one : width elements.length (Nat.clog 2 elements.length) = 1 := by
    have := (width_le_one_iff_clog_le pos _).mpr le_rfl
    have := width_pos pos (Nat.clog 2 elements.length)
    omega
  simp [OrderedTree.getRoot, List.range_succ, orderedLevel, one]

/-- The root of the tree the constructor builds over a non-empty list is the top node of the
ordered tree, where a node without a right sibling goes up unhashed. -/
theorem OrderedTree.build_getRoot {elements : List D} (pos : 0 < elements.length) :
    (OrderedTree.build combine elements).toOption.bind OrderedTree.getRoot =
      some (orderedNode combine zero elements (Nat.clog 2 elements.length) 0) := by
  rw [OrderedTree.build_levels combine zero pos]
  exact OrderedTree.getRoot_levels combine zero pos

theorem OrderedTree.build_getRoot_five :
    0 < [1, 2, 3, 4, 5].length ∧
      (OrderedTree.build Nat.pair [1, 2, 3, 4, 5]).toOption.bind OrderedTree.getRoot =
        some (orderedNode Nat.pair 0 [1, 2, 3, 4, 5] 3 0) :=
  ⟨by decide, OrderedTree.build_getRoot Nat.pair 0 (show 0 < [1, 2, 3, 4, 5].length by decide)⟩

end Levels

/-! ### Over a power of two, every ordered proof verifies -/

section PowerOfTwo

variable {D : Type} (combine : D → D → D) (zero : D)

/-- getPair reads the node at index ^ 1. -/
theorem getPair_eq (layer : List D) (index : Nat) : getPair layer index = layer[index ^^^ 1]? := by
  rw [getPair, Nat.and_one_is_mod]
  rcases Nat.even_or_odd index with even | odd
  · rw [Nat.xor_one_of_even even, if_neg (by rw [Nat.even_iff] at even; omega)]
  · rw [Nat.xor_one_of_odd odd, if_pos (by rw [Nat.odd_iff] at odd; omega)]

/-- Below 2 ^ remaining the index is left as it is. -/
theorem adjust_of_lt {remaining index : Nat} (below : index < 2 ^ remaining) :
    adjust remaining index = index := by
  unfold adjust
  cases index with
  | zero => rfl
  | succ i => rw [adjustFrom, if_neg (by rw [Nat.one_shiftLeft]; omega)]

variable {elements : List D} {k : Nat} (size : elements.length = 2 ^ k)
include size

theorem width_of_pow {l : Nat} (le : l ≤ k) : width elements.length l = 2 ^ (k - l) := by
  rw [width_eq_div (by rw [size]; exact Nat.two_pow_pos k)
    (by rw [size]; exact Nat.mod_eq_zero_of_dvd (pow_dvd_pow 2 le)), size, Nat.pow_div le (by norm_num)]

/-- The node of p and its sibling, both below 2 ^ k: the pair of p on level l, combined on the
side the bit of the index says, is the node of p one level up. -/
theorem climb_step {p l : Nat} (below : p < elements.length) (lt : l < k) :
    (if p >>> l &&& 1 = 1 then
        combine (orderedNode combine zero elements l ((p >>> l) ^^^ 1)) (orderedNode combine zero elements l (p >>> l))
      else combine (orderedNode combine zero elements l (p >>> l)) (orderedNode combine zero elements l ((p >>> l) ^^^ 1))) =
      orderedNode combine zero elements (l + 1) (p >>> (l + 1)) := by
  -- the pair of p lies below the end of the level, a multiple of 2 ^ (l + 1)
  have pairEnd : (p / 2 ^ (l + 1) + 1) * 2 ^ (l + 1) ≤ 2 ^ k := by
    have := div_succ_mul_le (p := p) (show l + 1 ≤ k by omega)
    rwa [show p / 2 ^ k = 0 from Nat.div_eq_of_lt (by rwa [← size]), Nat.zero_add, Nat.one_mul] at this
  have parent : p >>> (l + 1) = p >>> l / 2 := by
    rw [Nat.shiftRight_add, Nat.shiftRight_eq_div_pow _ 1, pow_one]
  have within : (p >>> l / 2 * 2 + 2) * 2 ^ l ≤ 2 ^ k := by
    rw [← parent, Nat.shiftRight_eq_div_pow]
    calc (p / 2 ^ (l + 1) * 2 + 2) * 2 ^ l = (p / 2 ^ (l + 1) + 1) * 2 ^ (l + 1) := by ring
      _ ≤ 2 ^ k := pairEnd
  have paired : 2 * (p >>> l / 2) + 1 < width elements.length l := by
    rw [lt_width_iff, size]
    have := Nat.two_pow_pos l
    nlinarith
  rw [parent, orderedNode, node, if_pos paired, Nat.and_one_is_mod]
  generalize p >>> l = q at paired
  rcases Nat.even_or_odd q with even | odd
  · have half : 2 * (q / 2) = q := Nat.two_mul_div_two_of_even even
    rw [if_neg (by rw [Nat.even_iff] at even; omega), Nat.xor_one_of_even even, half]
  · have half : 2 * (q / 2) + 1 = q := Nat.two_mul_div_two_add_one_of_odd odd
    rw [if_pos (by rw [Nat.odd_iff] at odd; omega), Nat.xor_one_of_odd odd, half,
      show 2 * (q / 2) = q - 1 by omega]

/-- getProof from layer l reads the sibling of p on each layer below the top. -/
theorem getProof_levels {p : Nat} (below : p < elements.length) :
    ∀ d l, l + d = k →
      getProof ((List.range (d + 1)).map fun i => orderedLevel combine zero elements (l + i)) (p >>> l) =
        (List.range d).map fun i => orderedNode combine zero elements (l + i) ((p >>> (l + i)) ^^^ 1)
  | 0, l, top => by
    -- the top layer holds one node, and the pair of index 0 is past it
    have first : p >>> l = 0 := by
      rw [Nat.shiftRight_eq_div_pow, show l = k by omega]
      exact Nat.div_eq_of_lt (by rwa [← size])
    simp [getProof, getPair_eq, first, orderedLevel, width_of_pow size (show l ≤ k by omega), show k - l = 0 by omega]
  | d + 1, l, top => by
    have sibling : ((p >>> l) ^^^ 1) < width elements.length l := by
      rw [lt_width_iff, size]
      have pairs := xor_one_succ_mul_le (p := p) l
      have ends := div_succ_mul_le (p := p) (show l + 1 ≤ k by omega)
      rw [show p / 2 ^ k = 0 from Nat.div_eq_of_lt (by rwa [← size]), Nat.zero_add, Nat.one_mul] at ends
      rw [Nat.add_mul, Nat.one_mul] at pairs
      have := Nat.two_pow_pos l
      omega
    have rest := getProof_levels below d (l + 1) (by omega)
    rw [List.range_succ_eq_map, List.map_cons, getProof, getPair_eq, Nat.add_zero,
      show p >>> l / 2 = p >>> (l + 1) by rw [Nat.shiftRight_add, Nat.shiftRight_eq_div_pow _ 1, pow_one],
      List.map_map]
    simp only [orderedLevel, List.getElem?_map, List.getElem?_range sibling, Option.map_some, Option.toList_some,
      List.singleton_append]
    conv_rhs => rw [List.range_succ_eq_map, List.map_cons, List.map_map]
    simp only [Function.comp_def, Nat.add_zero, Nat.succ_eq_add_one, ← Nat.add_assoc, Nat.add_right_comm l _ 1] at rest ⊢
    simp only [orderedLevel] at rest
    rw [rest]

/-- The checker's loop from layer l climbs from the node of p to the root: below 2 ^ k, no index
of a layer reaches 2 ^ remaining, so the index is never halved early. -/
theorem checkLoop_levels {p : Nat} (below : p < elements.length) :
    ∀ d l, l + d = k →
      checkLoop combine ((List.range d).map fun i => orderedNode combine zero elements (l + i) ((p >>> (l + i)) ^^^ 1))
          (orderedNode combine zero elements l (p >>> l)) (p >>> l) = orderedNode combine zero elements k 0
  | 0, l, top => by
    have first : p >>> l = 0 := by
      rw [Nat.shiftRight_eq_div_pow, show l = k by omega]
      exact Nat.div_eq_of_lt (by rwa [← size])
    rw [List.range_zero, List.map_nil, checkLoop, first, show l = k by omega]
  | d + 1, l, top => by
    have inLayer : p >>> l < 2 ^ (d + 1) := by
      rw [Nat.shiftRight_eq_div_pow, Nat.div_lt_iff_lt_mul (Nat.two_pow_pos l), ← pow_add,
        show d + 1 + l = k by omega, ← size]
      exact below
    rw [List.range_succ_eq_map, List.map_cons, checkLoop]
    simp only [List.length_map, List.length_range, Nat.add_zero]
    rw [adjust_of_lt inLayer, climb_step combine zero size below (by omega),
      show p >>> l / 2 = p >>> (l + 1) by rw [Nat.shiftRight_add, Nat.shiftRight_eq_div_pow _ 1, pow_one],
      List.map_map]
    have rest := checkLoop_levels below d (l + 1) (by omega)
    simp only [Function.comp_def, Nat.succ_eq_add_one, ← Nat.add_assoc, Nat.add_right_comm l _ 1] at rest ⊢
    exact rest

end PowerOfTwo

section Verified

variable {D : Type} [DecidableEq D] (combine : D → D → D)

/-- Over 2 ^ k elements, the ordered proof of every element verifies against the root: the MTP
tree has M_COST = 2 ^ 22 elements. -/
theorem checkProofOrdered_ofPowerOfTwo {elements : List D} {k : Nat} (size : elements.length = 2 ^ k)
    {p : Nat} (below : p < elements.length) :
    ∃ tree proof root, OrderedTree.build combine elements = .ok tree ∧
      tree.getProofOrdered elements[p] (p + 1) = .ok proof ∧ tree.getRoot = some root ∧
      checkProofOrdered combine proof root elements[p] (p + 1) = true := by
  have pos : 0 < elements.length := by rw [size]; exact Nat.two_pow_pos k
  have height : Nat.clog 2 elements.length = k := by rw [size, Nat.clog_pow _ _ (by norm_num)]
  let zero := elements[p]
  refine ⟨_, getProof ((List.range (Nat.clog 2 elements.length + 1)).map (orderedLevel combine zero elements)) p,
    _, OrderedTree.build_levels combine zero pos, ?_, OrderedTree.getRoot_levels combine zero pos, ?_⟩
  · simp [OrderedTree.getProofOrdered, List.getElem?_eq_getElem below]
  · have proof := getProof_levels combine zero size below k 0 (Nat.zero_add _)
    have climbed := checkLoop_levels combine zero size below k 0 (Nat.zero_add _)
    simp only [Nat.zero_add, Nat.shiftRight_zero] at proof climbed
    rw [checkProofOrdered, Nat.add_sub_cancel, height, proof]
    have leaf : orderedNode combine zero elements 0 p = elements[p] := by
      simp [orderedNode, node, List.getElem?_eq_getElem below]
    rw [leaf] at climbed
    simp [climbed]

theorem checkProofOrdered_ofPowerOfTwo_four : ([0, 1, 2, 3] : List Nat).length = 2 ^ 2 ∧ 2 < 4 ∧
    ∃ tree proof root, OrderedTree.build Nat.pair [0, 1, 2, 3] = .ok tree ∧
      tree.getProofOrdered 2 3 = .ok proof ∧ tree.getRoot = some root ∧
      checkProofOrdered Nat.pair proof root 2 3 = true :=
  ⟨rfl, by decide, checkProofOrdered_ofPowerOfTwo Nat.pair (k := 2) (p := 2) (show ([0, 1, 2, 3] : List Nat).length = 2 ^ 2 from rfl)
    (by decide)⟩

end Verified


/-- Leaf 11 of 12 under an injective combine: getProofOrdered gives its pair 12, the pair of
its parent on layer 1 and the left half of the root; the layer of three has no pair for it. The
checker halves the index 10 at once, since 10 ≥ 2 ^ 3, and so combines the first two hashes
the wrong way round. -/
theorem checkProofOrdered_rejectsEleventh :
    (do
      let tree ← OrderedTree.build Nat.pair (List.range 12)
      let proof ← tree.getProofOrdered 10 11
      pure (tree.getRoot.map fun root => checkProofOrdered Nat.pair proof root 10 11)) =
      (.ok (some false) : Except String (Option Bool)) := by
  simp (disch := decide) only [OrderedTree.build, getLayers_of_one_lt, getLayers_of_le_one]
  decide

end MFCoin.Mtp
