/-
Module: MFCoin.Kernel.SwapSort
Purpose: The candidate ordering of `ComputeNextStakeModifier` (src/src/kernel.cpp): the
  recursive neighbour-swapping `SwapSort`, the driver loop that calls it for every
  position, and the `std::sort` comparator the source keeps under `#if 0`. The driver
  is shown to terminate and to produce the reference order exactly.
Trusted boundary: none
Main exports: BlockIndex, swapNeeded, referenceLess, swapSort, sortedByTimestamp,
  swapSort_spec, sortedByTimestamp_spec
-/
import MFCoin.Lib.AdjacentSwap
import Mathlib.Data.Prod.Lex
import Mathlib.Data.Vector.Basic

namespace MFCoin.Kernel

open AdjacentSwap

/-! ### Candidates -/

/-- The part of `CBlockIndex` that the candidate sort reads: the header time and the
block hash, kept as the eight 32-bit words that `uint256::GetDataPtr` exposes, least
significant word first. -/
structure BlockIndex where
  nTime : UInt32
  hash : Vector UInt32 8
deriving DecidableEq, Repr

/-- `CBlockIndex::GetBlockTime`: the header time widened to `int64_t`. -/
def BlockIndex.getBlockTime (index : BlockIndex) : Int := index.nTime.toNat

/-- An element of `vSortedByTimestamp`: a block index and its `arith_uint256` slot,
which `ComputeNextStakeModifier` fills with `0`. -/
abbrev StakeCandidate := BlockIndex × Nat

/-! ### The two comparisons -/

/-- The word loop inside `SwapSort` for equal timestamps. `cnt` is the counter before its
`--cnt`; the result `true` means "break and swap". The loop leaves at `cnt == 0`, so the
first equation is never reached from `cnt = 8`. -/
def hashWordsSwap (pa pb : Vector UInt32 8) : (cnt : Nat) → cnt ≤ 8 → Bool
  | 0, _ => false
  | cnt + 1, bound =>
    if pa.get ⟨cnt, by omega⟩ < pb.get ⟨cnt, by omega⟩ then false
    else if pa.get ⟨cnt, by omega⟩ > pb.get ⟨cnt, by omega⟩ then true
    else if cnt = 0 then false
    else hashWordsSwap pa pb cnt (by omega)

/-- `SwapSort`'s decision for the neighbours `a` (at `pos`) and `b` (at `pos + 1`). -/
def swapNeeded (a b : BlockIndex) : Bool :=
  if a.getBlockTime < b.getBlockTime then false
  else if a.getBlockTime = b.getBlockTime then hashWordsSwap a.hash b.hash 8 le_rfl
  else true

/-- The `do ... while (cnt)` word loop of the comparator kept under `#if 0`. -/
def hashWordsLess (pa pb : Vector UInt32 8) : (cnt : Nat) → cnt ≤ 8 → Bool
  | 0, _ => false
  | cnt + 1, bound =>
    if pa.get ⟨cnt, by omega⟩ ≠ pb.get ⟨cnt, by omega⟩ then
      decide (pa.get ⟨cnt, by omega⟩ < pb.get ⟨cnt, by omega⟩)
    else hashWordsLess pa pb cnt (by omega)

/-- The reference comparator handed to `std::sort` under `#if 0`: earlier time first,
then the hash compared from the most significant word down. -/
def referenceLess (a b : BlockIndex) : Bool :=
  if a.getBlockTime ≠ b.getBlockTime then decide (a.getBlockTime < b.getBlockTime)
  else hashWordsLess a.hash b.hash 8 le_rfl

/-- The words `cnt - 1, ..., 0` of a hash, most significant first, as numbers. -/
def wordsFrom (pa : Vector UInt32 8) : (cnt : Nat) → cnt ≤ 8 → List Nat
  | 0, _ => []
  | cnt + 1, bound => (pa.get ⟨cnt, by omega⟩).toNat :: wordsFrom pa cnt (by omega)

/-- The order both comparisons decide: time, then the hash words lexicographically. -/
def candidateKey (index : BlockIndex) : Lex (Int × List Nat) :=
  toLex (index.getBlockTime, wordsFrom index.hash 8 le_rfl)

theorem hashWordsSwap_eq_hashWordsLess (pa pb : Vector UInt32 8) :
    ∀ (cnt : Nat) (bound : cnt ≤ 8),
      hashWordsSwap pa pb cnt bound = hashWordsLess pb pa cnt bound
  | 0, _ => rfl
  | cnt + 1, bound => by
    have ih := hashWordsSwap_eq_hashWordsLess pa pb cnt (by omega)
    have below : hashWordsLess pb pa 0 (by omega) = false := rfl
    simp only [hashWordsSwap, hashWordsLess, UInt32.lt_iff_toNat_lt, gt_iff_lt, ne_eq,
      UInt32.ext_iff]
    -- the two words, compared as numbers
    rcases lt_trichotomy (pa.get ⟨cnt, by omega⟩).toNat (pb.get ⟨cnt, by omega⟩).toNat
      with lt | same | gt
    · simp [lt, Nat.ne_of_gt lt, Nat.not_lt_of_gt lt]
    · rcases cnt with _ | cnt
      · -- the swap loop stops at `cnt == 0` exactly where the reference loop ends
        have sameLast : (pa.get 0).toNat = (pb.get 0).toNat := same
        simp [sameLast, below]
      · simp [same, ih]
    · simp [gt, Nat.ne_of_lt gt, Nat.not_lt_of_gt gt]

theorem hashWordsLess_iff (pa pb : Vector UInt32 8) :
    ∀ (cnt : Nat) (bound : cnt ≤ 8),
      hashWordsLess pa pb cnt bound = true ↔ wordsFrom pa cnt bound < wordsFrom pb cnt bound
  | 0, _ => by simp [hashWordsLess, wordsFrom]
  | cnt + 1, bound => by
    have ih := hashWordsLess_iff pa pb cnt (by omega)
    simp only [hashWordsLess, wordsFrom, List.cons_lt_cons_iff, UInt32.lt_iff_toNat_lt, ne_eq,
      UInt32.ext_iff]
    by_cases same : (pa.get ⟨cnt, by omega⟩).toNat = (pb.get ⟨cnt, by omega⟩).toNat
    · simp [same, ih]
    · simp [same]

/-- The `SwapSort` test is the reference comparator with its arguments exchanged. -/
theorem swapNeeded_eq_referenceLess (a b : BlockIndex) :
    swapNeeded a b = referenceLess b a := by
  unfold swapNeeded referenceLess
  rcases lt_trichotomy a.getBlockTime b.getBlockTime with earlier | same | later
  · simp [earlier, ne_of_gt earlier, not_lt_of_gt earlier]
  · simp [same, hashWordsSwap_eq_hashWordsLess]
  · simp [later, ne_of_lt later, not_lt_of_gt later, ne_of_gt later]

/-- The reference comparator is the strict order of `candidateKey`. -/
theorem referenceLess_iff (a b : BlockIndex) :
    referenceLess a b = true ↔ candidateKey a < candidateKey b := by
  unfold referenceLess candidateKey
  rw [Prod.Lex.lt_iff]
  by_cases same : a.getBlockTime = b.getBlockTime
  · simp [same, hashWordsLess_iff]
  · simp [same]

theorem wordsFrom_injective {pa pb : Vector UInt32 8} :
    ∀ (cnt : Nat) (bound : cnt ≤ 8), wordsFrom pa cnt bound = wordsFrom pb cnt bound →
      ∀ i (below : i < cnt), pa.get ⟨i, by omega⟩ = pb.get ⟨i, by omega⟩
  | 0, _, _, _, below => absurd below (Nat.not_lt_zero _)
  | cnt + 1, bound, same, i, below => by
    simp only [wordsFrom, List.cons.injEq] at same
    rcases Nat.lt_succ_iff_lt_or_eq.mp below with inner | top
    · exact wordsFrom_injective cnt (by omega) same.2 i inner
    · subst top
      exact UInt32.ext_iff.mpr same.1

/-- Equal keys mean equal block indexes: the key reads every field. -/
theorem candidateKey_injective : Function.Injective candidateKey := by
  intro a b same
  simp only [candidateKey, toLex_inj, Prod.mk.injEq, BlockIndex.getBlockTime,
    Int.natCast_inj] at same
  obtain ⟨time, words⟩ := same
  cases a
  cases b
  congr
  · exact UInt32.ext_iff.mpr time
  · apply Vector.ext
    intro i below
    exact wordsFrom_injective 8 le_rfl words i below

/-! ### `SwapSort` and its driver -/

/-- `SwapSort(v, pos)`. `pos` is the source's `unsigned`, so `pos - 1` at `0` wraps to
`UINT_MAX` and the next call returns at once. The recursion has no bound in the source:
the model runs it on `fuel`, and `none` means the fuel ran out. `v.size() - 1` is
evaluated on vectors of at least two candidates only. -/
def swapSort : Nat → List StakeCandidate → UInt32 → Option (List StakeCandidate)
  | 0, _, _ => none
  | fuel + 1, v, pos =>
    if pos.toNat ≥ v.length - 1 then some v
    else
      match v[pos.toNat]?, v[pos.toNat + 1]? with
      | some a, some b =>
        if swapNeeded a.1 b.1 then do
          let w ← swapSort fuel (swapAdjacent v pos.toNat) (pos - 1)
          swapSort fuel w (pos + 1)
        else some v
      | _, _ => some v

/-- The loop `for (int i = 0; i < (int)vSortedByTimestamp.size() - 1; i++)
SwapSort(vSortedByTimestamp, i);` of `ComputeNextStakeModifier`, each call with the same
fuel. -/
def sortedByTimestamp (fuel : Nat) (v : List StakeCandidate) :
    Option (List StakeCandidate) :=
  (List.range (v.length - 1)).foldlM (fun w i => swapSort fuel w i.toUInt32) v

/-- The key the sort orders candidates by. -/
def candidateOrder (c : StakeCandidate) : Lex (Int × List Nat) := candidateKey c.1

theorem descentAt_of_swapNeeded {v : List StakeCandidate} {p : Nat} {a b : StakeCandidate}
    (ha : v[p]? = some a) (hb : v[p + 1]? = some b) (needed : swapNeeded a.1 b.1 = true) :
    DescentAt candidateOrder v p := by
  rw [swapNeeded_eq_referenceLess, referenceLess_iff] at needed
  exact ⟨a, b, ha, hb, needed⟩

theorem not_descentAt_of_not_swapNeeded {v : List StakeCandidate} {p : Nat}
    {a b : StakeCandidate} (ha : v[p]? = some a) (hb : v[p + 1]? = some b)
    (kept : swapNeeded a.1 b.1 = false) : ¬ DescentAt candidateOrder v p := by
  rintro ⟨x, y, hx, hy, down⟩
  obtain rfl : a = x := Option.some.inj (ha.symm.trans hx)
  obtain rfl : b = y := Option.some.inj (hb.symm.trans hy)
  have needed : swapNeeded a.1 b.1 = true := by
    rw [swapNeeded_eq_referenceLess, referenceLess_iff]
    exact down
  rw [needed] at kept
  exact Bool.noConfusion kept

theorem toNat_pred_of_pos {pos : UInt32} (positive : 0 < pos.toNat) :
    (pos - 1).toNat = pos.toNat - 1 := by
  rw [UInt32.toNat_sub_of_le]
  · simp
  · simp [UInt32.le_iff_toNat_le]
    omega

theorem toNat_succ_of_lt {pos : UInt32} (room : pos.toNat + 1 < 2 ^ 32) :
    (pos + 1).toNat = pos.toNat + 1 := by
  rw [UInt32.toNat_add]
  simp
  omega

/-- One call of `SwapSort` with more fuel than inversions returns a permutation of its
input with no more inversions, whose descents the input already had, and never at `pos`.
This is the whole recursion's contract: the call at `pos - 1` cleans the descents the swap
may create on the left, the call at `pos + 1` those on the right. -/
theorem swapSort_spec :
    ∀ (fuel : Nat) (v : List StakeCandidate) (pos : UInt32), v.length ≤ 2 ^ 32 →
      inversions candidateOrder v < fuel →
      ∃ w, swapSort fuel v pos = some w ∧ w.Perm v ∧
        inversions candidateOrder w ≤ inversions candidateOrder v ∧
        ∀ j, DescentAt candidateOrder w j → DescentAt candidateOrder v j ∧ j ≠ pos.toNat
  | 0, _, _, _, enough => absurd enough (Nat.not_lt_zero _)
  | fuel + 1, v, pos, size, enough => by
    by_cases done : pos.toNat ≥ v.length - 1
    · -- `pos` is past the last pair: nothing is read, and no descent can sit at `pos`
      refine ⟨v, by simp [swapSort, done], List.Perm.refl v, le_rfl, ?_⟩
      intro j descent
      have bound := descent.succ_lt_length candidateOrder
      exact ⟨descent, by omega⟩
    · have inside : pos.toNat + 1 < v.length := by omega
      obtain ⟨a, ha⟩ : ∃ a, v[pos.toNat]? = some a :=
        ⟨_, List.getElem?_eq_getElem (by omega)⟩
      obtain ⟨b, hb⟩ : ∃ b, v[pos.toNat + 1]? = some b :=
        ⟨_, List.getElem?_eq_getElem inside⟩
      cases needed : swapNeeded a.1 b.1
      · -- the pair is in order: `v` comes back unchanged
        refine ⟨v, by simp [swapSort, done, ha, hb, needed], List.Perm.refl v, le_rfl, ?_⟩
        intro j descent
        refine ⟨descent, fun atPos => ?_⟩
        subst atPos
        exact not_descentAt_of_not_swapNeeded ha hb needed descent
      · have descent := descentAt_of_swapNeeded ha hb needed
        have fewer := inversions_swapAdjacent candidateOrder descent
        obtain ⟨w₁, run₁, perm₁, inv₁, desc₁⟩ :=
          swapSort_spec fuel (swapAdjacent v pos.toNat) (pos - 1) (by simpa using size)
            (by omega)
        obtain ⟨w₂, run₂, perm₂, inv₂, desc₂⟩ :=
          swapSort_spec fuel w₁ (pos + 1) (by rw [perm₁.length_eq]; simpa using size)
            (by omega)
        refine ⟨w₂, by simp [swapSort, done, ha, hb, needed, run₁, run₂],
          perm₂.trans (perm₁.trans (swapAdjacent_perm v _)), by omega, ?_⟩
        intro j after
        obtain ⟨middle, notNext⟩ := desc₂ j after
        obtain ⟨swapped, notPrev⟩ := desc₁ j middle
        have bound := middle.succ_lt_length candidateOrder
        rw [perm₁.length_eq, length_swapAdjacent] at bound
        rcases descentAt_swapAdjacent candidateOrder descent swapped with
          left | right | ⟨notPos, old⟩
        · -- the left neighbour was cleaned by the call at `pos - 1`
          exact absurd (by rw [toNat_pred_of_pos (by omega)]; omega) notPrev
        · -- the right neighbour was cleaned by the call at `pos + 1`
          exact absurd (by rw [toNat_succ_of_lt (by omega)]; omega) notNext
        · exact ⟨old, notPos⟩

/-- The driver over any list of positions: each call removes its own position from the
set of possible descents. -/
theorem foldSwapSort_spec (fuel : Nat) :
    ∀ (positions : List Nat) (v : List StakeCandidate), v.length ≤ 2 ^ 32 →
      inversions candidateOrder v < fuel → (∀ i ∈ positions, i < 2 ^ 32) →
      ∃ w, positions.foldlM (fun w i => swapSort fuel w i.toUInt32) v = some w ∧
        w.Perm v ∧ inversions candidateOrder w ≤ inversions candidateOrder v ∧
        ∀ j, DescentAt candidateOrder w j → DescentAt candidateOrder v j ∧ j ∉ positions
  | [], v, _, _, _ =>
    ⟨v, rfl, List.Perm.refl v, le_rfl, fun j descent => ⟨descent, List.not_mem_nil⟩⟩
  | i :: rest, v, size, enough, small => by
    obtain ⟨w₁, run₁, perm₁, inv₁, desc₁⟩ := swapSort_spec fuel v i.toUInt32 size enough
    obtain ⟨w, run, perm, inv, desc⟩ :=
      foldSwapSort_spec fuel rest w₁ (by rw [perm₁.length_eq]; exact size) (by omega)
        (fun k member => small k (List.mem_cons_of_mem i member))
    refine ⟨w, by simp [List.foldlM_cons, run₁, run], perm.trans perm₁, by omega, ?_⟩
    intro j descent
    obtain ⟨middle, notLater⟩ := desc j descent
    obtain ⟨old, notFirst⟩ := desc₁ j middle
    have firstPosition : i.toUInt32.toNat = i :=
      UInt32.toNat_ofNat_of_lt' (small i List.mem_cons_self)
    refine ⟨old, fun member => ?_⟩
    rcases List.mem_cons.mp member with first | later
    · exact notFirst (by rw [firstPosition, first])
    · exact notLater later

/-- The stake-modifier driver terminates on enough fuel and leaves a permutation of its
input in non-decreasing `candidateKey` order. The vector holds distinct ancestors of a
block whose height is an `int`, so it has fewer than `2 ^ 31` entries and the `(int)`
cast of its size is exact. -/
theorem sortedByTimestamp_spec (fuel : Nat) (v : List StakeCandidate)
    (size : v.length < 2 ^ 31) (enough : inversions candidateOrder v < fuel) :
    ∃ w, sortedByTimestamp fuel v = some w ∧ w.Perm v ∧
      w.Pairwise (fun a b => candidateOrder a ≤ candidateOrder b) := by
  obtain ⟨w, run, perm, _, desc⟩ :=
    foldSwapSort_spec fuel (List.range (v.length - 1)) v (by omega) enough
      (fun i member => by rw [List.mem_range] at member; omega)
  refine ⟨w, run, perm, pairwise_of_no_descent candidateOrder fun j descent => ?_⟩
  -- every descent of `w` is one of `v` at a position the loop visited
  obtain ⟨old, notVisited⟩ := desc j descent
  have bound := old.succ_lt_length candidateOrder
  exact notVisited (List.mem_range.mpr (by omega))

theorem candidateOrder_le_iff (a b : StakeCandidate) :
    candidateOrder a ≤ candidateOrder b ↔ referenceLess b.1 a.1 = false := by
  rw [← not_lt, candidateOrder, candidateOrder, ← referenceLess_iff]
  simp

/-- `SwapSort`, run for `i = 0 .. size - 2` over `(block index, 0)` candidates, ends and
yields exactly what `std::sort` with the `#if 0` comparator may yield: a permutation of
the input with no pair out of order, and any such permutation is this one. -/
theorem sortedByTimestamp_eq_reference_sort (fuel : Nat) (v : List StakeCandidate)
    (size : v.length < 2 ^ 31) (enough : inversions candidateOrder v < fuel)
    (zeroSlots : ∀ c ∈ v, c.2 = 0) :
    ∃ w, sortedByTimestamp fuel v = some w ∧ w.Perm v ∧
      w.Pairwise (fun a b => referenceLess b.1 a.1 = false) ∧
      ∀ u : List StakeCandidate, u.Perm v →
        u.Pairwise (fun a b => referenceLess b.1 a.1 = false) → u = w := by
  obtain ⟨w, run, perm, sorted⟩ := sortedByTimestamp_spec fuel v size enough
  have sortedRef : w.Pairwise (fun a b => referenceLess b.1 a.1 = false) :=
    sorted.imp fun {a b} le => (candidateOrder_le_iff a b).mp le
  refine ⟨w, run, perm, sortedRef, fun u permU sortedU => ?_⟩
  have keys : u.map candidateOrder = w.map candidateOrder :=
    map_eq_of_perm_of_pairwise candidateOrder permU perm
      (sortedU.imp fun {a b} ref => (candidateOrder_le_iff a b).mpr ref) sorted
  -- the key reads the whole block index, and every slot is `0`
  have indexes : u.map Prod.fst = w.map Prod.fst := by
    have composed : (u.map Prod.fst).map candidateKey = (w.map Prod.fst).map candidateKey := by
      rw [List.map_map, List.map_map]
      exact keys
    exact (List.map_injective_iff.mpr candidateKey_injective) composed
  have slots : u.map Prod.snd = w.map Prod.snd := by
    have zeroU : ∀ c ∈ u, c.2 = 0 := fun c member => zeroSlots c (permU.subset member)
    have zeroW : ∀ c ∈ w, c.2 = 0 := fun c member => zeroSlots c (perm.subset member)
    apply List.ext_getElem (by simp [permU.length_eq, perm.length_eq])
    intro n hu hw
    simp [zeroU _ (List.getElem_mem _), zeroW _ (List.getElem_mem _)]
  rw [← List.zip_unzip u, ← List.zip_unzip w, List.unzip_fst, List.unzip_snd,
    List.unzip_fst, List.unzip_snd, indexes, slots]

/-- Two candidates with equal hashes arriving in the wrong time order. -/
def lateThenEarly : List StakeCandidate :=
  [(⟨5, Vector.replicate 8 0⟩, 0), (⟨3, Vector.replicate 8 0⟩, 0)]

theorem sortedByTimestamp_lateThenEarly :
    ∃ w, sortedByTimestamp 2 lateThenEarly = some w ∧ w.Perm lateThenEarly ∧
      w.Pairwise (fun a b => referenceLess b.1 a.1 = false) ∧
      ∀ u : List StakeCandidate, u.Perm lateThenEarly →
        u.Pairwise (fun a b => referenceLess b.1 a.1 = false) → u = w :=
  sortedByTimestamp_eq_reference_sort 2 lateThenEarly (by decide) (by decide) (by decide)

end MFCoin.Kernel
