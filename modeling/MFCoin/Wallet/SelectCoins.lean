/-
Module: MFCoin.Wallet.SelectCoins
Purpose: Coin selection of the wallet (src/src/wallet/wallet.cpp): `SelectCoinsMinConf`
  shuffles the coins it is given, skips those that are not spendable, too shallow, beyond the
  pool's chain limit or name outputs, returns a coin of exactly the target at once, and
  otherwise chooses among all the coins below the target plus `MIN_CHANGE`, the smallest coin
  above it, and the subset `ApproximateBestSubset` finds by random passes. The random choices
  are inputs (`Draws`): any permutation for `random_shuffle`, the bits the two
  `FastRandomContext`s draw, and the order `std::sort` leaves among coins of equal value, which
  is not stable; the results hold for all of them. Over distinct coins of values
  that are not negative, the selection returns exactly when the coins it may spend reach the
  target, and then some of those coins with their exact total, at least the target.
Trusted boundary: `COutput` carries what the loop reads of its wallet transaction
  (`GetHash`, `nVersion`, the output's value and script, `IsFromMe(ISMINE_ALL)`), and
  `mempool.TransactionWithinChainLimit` is a parameter. Totals are exact integers: the coins
  the results are about sum to at most `MAX_MONEY`, and the one sum that can leave `int64_t`
  there, `nTargetValue + MIN_CHANGE`, is checked.
Main exports: MIN_CHANGE, COutput, SelectFault, isNameScript, eligible, scanCoins,
  approximateBestSubset, Draws, selectCoinsMinConf, selectCoinsMinConf_spec
-/
import MFCoin.Names.Fee
import Mathlib.Algebra.Order.BigOperators.Group.List

namespace MFCoin.Wallet

open MFCoin.Script MFCoin.Names MFCoin.Pow

/-- `MIN_CHANGE`: twice `MIN_TXOUT_AMOUNT`, which is `MIN_TX_FEE`. -/
def MIN_CHANGE : Int := 2 * MIN_TX_FEE

/-- `COutput`, with what `SelectCoinsMinConf` reads of its wallet transaction. -/
structure COutput where
  hash : TxHash
  nVersion : Int
  i : Nat
  /-- `pcoin->tx->vout[i].nValue` -/
  nValue : Int
  /-- `pcoin->tx->vout[i].scriptPubKey` -/
  scriptPubKey : Script
  nDepth : Int
  fSpendable : Bool
  /-- `pcoin->IsFromMe(ISMINE_ALL)` -/
  fromMe : Bool
deriving DecidableEq, Repr

/-- Where `SelectCoinsMinConf` leaves defined behaviour or does not return. -/
inductive SelectFault where
  /-- `nTargetValue + MIN_CHANGE` outside `int64_t` -/
  | overflow
  /-- the `scriptnum_error` `IsNameScript` lets through -/
  | scriptNum (error : ScriptNumError)
deriving DecidableEq, Repr

/-- `CNamecoinHooks::IsNameScript(scr)`: `DecodeNameScript` from the start of the script,
whose `scriptnum_error` escapes. -/
def isNameScript (scr : Script) : Except ScriptNumError Bool :=
  match decodeNameScript scr 0 with
  | .ok _ => .ok true
  | .error (.rejected _) => .ok false
  | .error (.scriptNum error) => .error error

/-- `nTargetValue + MIN_CHANGE`, an `int64_t` sum. -/
def withChange (nTargetValue : Int) : Except SelectFault Int :=
  (int64 (nTargetValue + MIN_CHANGE)).mapError fun _ => .overflow

section Filters

variable (withinChainLimit : TxHash → Bool) (nConfMine nConfTheirs : Int)

/-- The three tests before the value is read: `fSpendable`, the depth asked of own and of
foreign transactions, and the pool's chain limit. -/
def passesFilters (output : COutput) : Bool :=
  output.fSpendable && decide ((if output.fromMe then nConfMine else nConfTheirs) ≤ output.nDepth) &&
    withinChainLimit output.hash

/-- A name output: a script `IsNameScript` recognises in a `NAMECOIN_TX_VERSION` transaction. -/
def isNameOutput (output : COutput) : Bool :=
  decide (output.nVersion = NAMECOIN_TX_VERSION) &&
    match isNameScript output.scriptPubKey with
    | .ok name => name
    | .error _ => false

/-- The coins `SelectCoinsMinConf` may spend. -/
def eligible (output : COutput) : Bool :=
  passesFilters withinChainLimit nConfMine nConfTheirs output && !isNameOutput output

end Filters

/-- The accumulators of the loop over the coins: `vValue`, `nTotalLower`, `coinLowestLarger`. -/
structure Lower where
  vValue : List (Int × COutput)
  nTotalLower : Int
  coinLowestLarger : Int × Option COutput

/-- `coinLowestLarger.first = numeric_limits<CAmount>::max()`, `.second.first = NULL`. -/
def Lower.init : Lower := ⟨[], 0, (INT64_MAX, none)⟩

/-- How the loop over the coins ends: at a coin of exactly the target, or with its
accumulators. -/
inductive Scan where
  | exact (coin : COutput)
  | lower (st : Lower)

/-- The `BOOST_FOREACH` over the shuffled coins. -/
def scanCoins (withinChainLimit : TxHash → Bool) (nTargetValue nConfMine nConfTheirs : Int) :
    List COutput → Lower → Except SelectFault Scan
  | [], st => pure (.lower st)
  | output :: rest, st =>
    if !passesFilters withinChainLimit nConfMine nConfTheirs output then
      scanCoins withinChainLimit nTargetValue nConfMine nConfTheirs rest st
    else do
      let n := output.nValue
      -- ignore namecoin TxOut
      let name ← (if output.nVersion = NAMECOIN_TX_VERSION then
        (isNameScript output.scriptPubKey).mapError .scriptNum else pure false)
      if name then scanCoins withinChainLimit nTargetValue nConfMine nConfTheirs rest st
      else if n = nTargetValue then pure (.exact output)
      else do
        let bound ← withChange nTargetValue
        if n < bound then
          scanCoins withinChainLimit nTargetValue nConfMine nConfTheirs rest
            { st with vValue := st.vValue ++ [(n, output)], nTotalLower := st.nTotalLower + n }
        else if n < st.coinLowestLarger.1 then
          scanCoins withinChainLimit nTargetValue nConfMine nConfTheirs rest
            { st with coinLowestLarger := (n, some output) }
        else scanCoins withinChainLimit nTargetValue nConfMine nConfTheirs rest st

/-! ### `ApproximateBestSubset` -/

/-- The state of `ApproximateBestSubset`. -/
structure Subset where
  vfIncluded : List Bool
  nTotal : Int
  fReachedTarget : Bool
  vfBest : List Bool
  nBest : Int

/-- Coin `i` of value `v` taken: once the total reaches the target it is recorded if it is the
best so far, and the coin is put back. -/
def Subset.include (nTargetValue v : Int) (i : Nat) (st : Subset) : Subset :=
  let nTotal := st.nTotal + v
  let vfIncluded := st.vfIncluded.set i true
  if nTotal ≥ nTargetValue then
    { vfIncluded := vfIncluded.set i false, nTotal := nTotal - v, fReachedTarget := true,
      vfBest := if nTotal < st.nBest then vfIncluded else st.vfBest,
      nBest := if nTotal < st.nBest then nTotal else st.nBest }
  else { st with vfIncluded := vfIncluded, nTotal := nTotal }

/-- The `for i` loop of one pass, from coin `i` on: the first pass takes a coin on a random
bit, the second every coin not taken. -/
def subsetPass (nTargetValue : Int) (firstPass : Bool) (bits : Nat → Bool) :
    List Int → Nat → Subset → Subset
  | [], _, st => st
  | v :: rest, i, st =>
    let take := if firstPass then bits i else !st.vfIncluded.getD i false
    subsetPass nTargetValue firstPass bits rest (i + 1) (if take then st.include nTargetValue v i else st)

/-- The `for nRep` loop: every repetition starts with no coin taken and makes at most two
passes; the loop stops early at a subset of exactly the target. -/
def subsetReps (vValue : List Int) (nTargetValue : Int) (bits : Nat → Nat → Bool) :
    Nat → Nat → List Bool × Int → List Bool × Int
  | 0, _, best => best
  | fuel + 1, nRep, (vfBest, nBest) =>
    if nBest = nTargetValue then (vfBest, nBest)
    else
      let st : Subset := ⟨List.replicate vValue.length false, 0, false, vfBest, nBest⟩
      let st := subsetPass nTargetValue true (bits nRep) vValue 0 st
      let st := if st.fReachedTarget then st else subsetPass nTargetValue false (bits nRep) vValue 0 st
      subsetReps vValue nTargetValue bits fuel (nRep + 1) (st.vfBest, st.nBest)

/-- `ApproximateBestSubset(vValue, nTotalLower, nTargetValue, vfBest, nBest, iterations)`:
`vfBest` starts as every coin and `nBest` as `nTotalLower`. -/
def approximateBestSubset (vValue : List Int) (nTotalLower nTargetValue : Int) (bits : Nat → Nat → Bool)
    (iterations : Nat) : List Bool × Int :=
  subsetReps vValue nTargetValue bits iterations 0 (List.replicate vValue.length true, nTotalLower)

/-- The entries whose flag is set. -/
def selected {α : Type} : List α → List Bool → List α
  | a :: as, b :: bs => if b then a :: selected as bs else selected as bs
  | _, _ => []

/-! ### `SelectCoinsMinConf` -/

/-- The outcomes of the choices one call leaves to its library: the order `random_shuffle`
leaves the coins in, the bits `rand32() & 1` of the `FastRandomContext` of each call of
`ApproximateBestSubset`, by repetition and coin, and the order
`std::sort(vValue, CompareValueOnly())` leaves the values in, any ordering by value since the
sort is not stable. -/
structure Draws where
  shuffle : List COutput → List COutput
  shuffle_perm : ∀ coins, (shuffle coins).Perm coins
  firstBits : Nat → Nat → Bool
  secondBits : Nat → Nat → Bool
  sortByValue : List (Int × COutput) → List (Int × COutput)
  sortByValue_perm : ∀ vValue, (sortByValue vValue).Perm vValue
  sortByValue_sorted : ∀ vValue, (sortByValue vValue).Pairwise fun a b => a.1 ≤ b.1

/-- `std::sort` by value as a merge sort, one of the orders it may leave. -/
def mergeSortByValue (vValue : List (Int × COutput)) : List (Int × COutput) :=
  vValue.mergeSort fun a b => decide (a.1 ≤ b.1)

theorem mergeSortByValue_sorted (vValue : List (Int × COutput)) :
    (mergeSortByValue vValue).Pairwise fun a b => a.1 ≤ b.1 := by
  have sorted : (mergeSortByValue vValue).Pairwise fun a b => decide (a.1 ≤ b.1) = true :=
    List.pairwise_mergeSort (fun _ _ _ ab bc => by simp only [decide_eq_true_eq] at ab bc ⊢; omega)
      (fun a b => by simp only [Bool.or_eq_true, decide_eq_true_eq]; omega) vValue
  simpa only [decide_eq_true_eq] using sorted

/-- The draws of a call that keeps the coins in their order, draws no bit and sorts by merge
sort. -/
def Draws.plain : Draws :=
  ⟨id, List.Perm.refl, fun _ _ => false, fun _ _ => false, mergeSortByValue,
    fun vValue => List.mergeSort_perm vValue _, mergeSortByValue_sorted⟩

/-- The two calls of `ApproximateBestSubset` over `vValue`: the second aims at the target plus
`MIN_CHANGE` (`plus`) when the first found no subset of exactly the target and the coins below
reach `plus`. -/
def bestSubset (draws : Draws) (vValue : List (Int × COutput)) (nTotalLower nTargetValue plus : Int) :
    List Bool × Int :=
  let (vfBest, nBest) := approximateBestSubset (vValue.map Prod.fst) nTotalLower nTargetValue draws.firstBits 1000
  if nBest ≠ nTargetValue ∧ nTotalLower ≥ plus then
    approximateBestSubset (vValue.map Prod.fst) nTotalLower plus draws.secondBits 1000
  else (vfBest, nBest)

/-- The coins the flags select and their total, as the last loop inserts and adds them. -/
def takeSelected (vValue : List (Int × COutput)) (vfBest : List Bool) : List COutput × Int :=
  ((selected vValue vfBest).map Prod.snd, ((selected vValue vfBest).map Prod.fst).sum)

/-- `CWallet::SelectCoinsMinConf(nTargetValue, nConfMine, nConfTheirs, nMaxAncestors, vCoins,
setCoinsRet, nValueRet)`: `none` is `return false`, `some (setCoinsRet, nValueRet)` is
`return true`; `withinChainLimit` is `mempool.TransactionWithinChainLimit(·, nMaxAncestors)`.
The source computes `nTargetValue + MIN_CHANGE` at each use; it is one value. -/
def selectCoinsMinConf (withinChainLimit : TxHash → Bool) (draws : Draws) (nTargetValue nConfMine nConfTheirs : Int)
    (vCoins : List COutput) : Except SelectFault (Option (List COutput × Int)) := do
  match ← scanCoins withinChainLimit nTargetValue nConfMine nConfTheirs (draws.shuffle vCoins) Lower.init with
  | .exact coin => return some ([coin], coin.nValue)
  | .lower st =>
    if st.nTotalLower = nTargetValue then
      return some (st.vValue.map Prod.snd, (st.vValue.map Prod.fst).sum)
    else if st.nTotalLower < nTargetValue then
      match st.coinLowestLarger with
      | (_, none) => return none
      | (n, some coin) => return some ([coin], n)
    else
      -- solve subset sum by stochastic approximation
      let vValue := (draws.sortByValue st.vValue).reverse
      let plus ← withChange nTargetValue
      let (vfBest, nBest) := bestSubset draws vValue st.nTotalLower nTargetValue plus
      match st.coinLowestLarger with
      | (n, some coin) =>
        if (nBest ≠ nTargetValue ∧ nBest < plus) ∨ n ≤ nBest then return some ([coin], n)
        else return some (takeSelected vValue vfBest)
      | (_, none) => return some (takeSelected vValue vfBest)

/-! ### Flags over a list -/

section Selected

variable {α : Type}

theorem selected_sublist : ∀ (as : List α) (bs : List Bool), (selected as bs).Sublist as
  | [], _ => by simp [selected]
  | _ :: _, [] => List.nil_sublist _
  | a :: as, b :: bs => by
    cases b
    · exact (selected_sublist as bs).cons a
    · exact (selected_sublist as bs).cons_cons a

theorem selected_replicate_true : ∀ (as : List α), selected as (List.replicate as.length true) = as
  | [] => rfl
  | a :: as => by rw [List.length_cons, List.replicate_succ, selected, if_pos rfl, selected_replicate_true as]

theorem selected_replicate_false : ∀ (as : List α) (n : Nat), selected as (List.replicate n false) = []
  | [], _ => by simp [selected]
  | _ :: _, 0 => rfl
  | a :: as, n + 1 => by
    rw [List.replicate_succ, selected, if_neg Bool.false_ne_true, selected_replicate_false as n]

theorem map_selected {β : Type} (f : α → β) : ∀ (as : List α) (bs : List Bool),
    (selected as bs).map f = selected (as.map f) bs
  | [], _ => by simp [selected]
  | _ :: _, [] => rfl
  | a :: as, b :: bs => by cases b <;> simp [selected, map_selected f as bs]

end Selected

/-- Setting one flag takes its value out of the selected sum, and puts it back if the new flag
is set. -/
theorem sum_selected_set : ∀ (vs : List Int) (bs : List Bool) (i : Nat) (b : Bool), i < bs.length →
    (selected vs (bs.set i b)).sum =
      (selected vs bs).sum - (if bs.getD i false then vs.getD i 0 else 0) + (if b then vs.getD i 0 else 0)
  | [], bs, i, b, _ => by simp [selected]
  | _ :: _, [], _, _, index => absurd index (Nat.not_lt_zero _)
  | v :: vs, c :: bs, 0, b, _ => by
    cases b <;> cases c <;> simp [selected] <;> ring
  | v :: vs, c :: bs, i + 1, b, index => by
    have inner := sum_selected_set vs bs i b (by simpa using index)
    rw [List.set_cons_succ, List.getD_cons_succ, List.getD_cons_succ]
    cases c
    · simp only [selected, Bool.false_eq_true, if_false]
      exact inner
    · simp only [selected, if_true, List.sum_cons, inner]
      ring

/-! ### The invariant of `ApproximateBestSubset` -/

/-- What every state of `ApproximateBestSubset` keeps over the values `vs`: both flag lists
cover the values, the running total is the sum of the values taken, and the best total, at
least the target, is the sum of the best flags. -/
structure Subset.Inv (vs : List Int) (nTargetValue : Int) (st : Subset) : Prop where
  included_length : st.vfIncluded.length = vs.length
  total : st.nTotal = (selected vs st.vfIncluded).sum
  best_length : st.vfBest.length = vs.length
  best : st.nBest = (selected vs st.vfBest).sum
  reaches : nTargetValue ≤ st.nBest

theorem Subset.include_vfIncluded_ne {nTargetValue v : Int} {i j : Nat} (st : Subset) (other : i ≠ j) :
    (st.include nTargetValue v i).vfIncluded.getD j false = st.vfIncluded.getD j false := by
  unfold Subset.include
  dsimp only
  split_ifs <;> simp [List.getD_eq_getElem?_getD, List.getElem?_set_ne other]

/-- Taking a coin that is not taken keeps the invariant: a total that reaches the target is
at least the target, and it replaces the best one only when it is smaller. -/
theorem Subset.Inv.include {vs : List Int} {nTargetValue : Int} {st : Subset} (inv : st.Inv vs nTargetValue)
    {i : Nat} (index : i < vs.length) (free : st.vfIncluded.getD i false = false) :
    (st.include nTargetValue (vs.getD i 0) i).Inv vs nTargetValue := by
  have flagIndex : i < st.vfIncluded.length := inv.included_length ▸ index
  have taken : (selected vs (st.vfIncluded.set i true)).sum = st.nTotal + vs.getD i 0 := by
    rw [sum_selected_set _ _ _ _ flagIndex, free, inv.total]
    simp
  have takenFlag : (st.vfIncluded.set i true).getD i false = true := by
    simp [List.getD_eq_getElem?_getD, List.getElem?_set_self (inv.included_length ▸ index)]
  have putBack : (selected vs ((st.vfIncluded.set i true).set i false)).sum = st.nTotal := by
    rw [sum_selected_set _ _ _ _ (by simpa using flagIndex), takenFlag, taken]
    simp
  unfold Subset.include
  dsimp only
  split_ifs with reached better
  · exact ⟨by simp [inv.included_length], by rw [putBack]; ring, by simp [inv.included_length], taken.symm, reached⟩
  · exact ⟨by simp [inv.included_length], by rw [putBack]; ring, inv.best_length, inv.best, inv.reaches⟩
  · exact ⟨by simp [inv.included_length], taken.symm, inv.best_length, inv.best, inv.reaches⟩

/-- A pass from coin `i` on keeps the invariant; on the first pass no coin from `i` on is
taken yet, and the second takes only coins not taken. -/
theorem Subset.Inv.pass {vs : List Int} {nTargetValue : Int} (firstPass : Bool) (bits : Nat → Bool) :
    ∀ (rest : List Int) (i : Nat) (st : Subset), vs.drop i = rest → st.Inv vs nTargetValue →
      (firstPass = true → ∀ j, i ≤ j → st.vfIncluded.getD j false = false) →
      (subsetPass nTargetValue firstPass bits rest i st).Inv vs nTargetValue
  | [], _, _, _, inv, _ => inv
  | v :: rest, i, st, suffix, inv, fresh => by
    have index : i < vs.length := by
      by_contra beyond
      rw [List.drop_eq_nil_of_le (by omega)] at suffix
      cases suffix
    rw [List.drop_eq_getElem_cons index, List.cons.injEq] at suffix
    obtain ⟨value, next⟩ := suffix
    have valueAt : vs.getD i 0 = v := by rw [List.getD_eq_getElem _ _ index, value]
    -- a coin is taken only when it is not taken yet
    have free : (if firstPass then bits i else !st.vfIncluded.getD i false) = true →
        st.vfIncluded.getD i false = false := by
      intro taken
      cases firstPass
      · simpa using taken
      · exact fresh rfl i (le_refl i)
    rw [subsetPass]
    generalize (if firstPass then bits i else !st.vfIncluded.getD i false) = take at free
    apply Subset.Inv.pass firstPass bits rest (i + 1) _ next
    · cases take
      · rw [if_neg Bool.false_ne_true]
        exact inv
      · rw [if_pos rfl, ← valueAt]
        exact inv.include index (free rfl)
    · intro first j later
      cases take
      · rw [if_neg Bool.false_ne_true]
        exact fresh first j (by omega)
      · rw [if_pos rfl, Subset.include_vfIncluded_ne st (by omega)]
        exact fresh first j (by omega)

/-- The best subset and total carried from one repetition to the next: flags for every
value, their sum, at least the target. -/
structure BestFor (vs : List Int) (nTargetValue : Int) (best : List Bool × Int) : Prop where
  length : best.1.length = vs.length
  sum : best.2 = (selected vs best.1).sum
  reaches : nTargetValue ≤ best.2

theorem BestFor.reps {vs : List Int} {nTargetValue : Int} (bits : Nat → Nat → Bool) :
    ∀ (fuel nRep : Nat) (best : List Bool × Int), BestFor vs nTargetValue best →
      BestFor vs nTargetValue (subsetReps vs nTargetValue bits fuel nRep best)
  | 0, _, _, kept => kept
  | fuel + 1, nRep, (vfBest, nBest), kept => by
    rw [subsetReps]
    split_ifs
    · exact kept
    apply BestFor.reps bits fuel (nRep + 1)
    -- each repetition starts from no coin taken
    have start : Subset.Inv vs nTargetValue ⟨List.replicate vs.length false, 0, false, vfBest, nBest⟩ :=
      ⟨List.length_replicate, by rw [selected_replicate_false]; rfl, kept.length, kept.sum, kept.reaches⟩
    have first := start.pass true (bits nRep) vs 0 _ List.drop_zero
      (fun _ j _ => by
        simp only [List.getD_eq_getElem?_getD, List.getElem?_replicate]
        split_ifs <;> rfl)
    have second : (if (subsetPass nTargetValue true (bits nRep) vs 0
        ⟨List.replicate vs.length false, 0, false, vfBest, nBest⟩).fReachedTarget then
        subsetPass nTargetValue true (bits nRep) vs 0 ⟨List.replicate vs.length false, 0, false, vfBest, nBest⟩
      else subsetPass nTargetValue false (bits nRep) vs 0
        (subsetPass nTargetValue true (bits nRep) vs 0
          ⟨List.replicate vs.length false, 0, false, vfBest, nBest⟩)).Inv vs nTargetValue := by
      split_ifs
      · exact first
      · exact first.pass false (bits nRep) vs 0 _ List.drop_zero (fun never => absurd never Bool.false_ne_true)
    exact ⟨second.best_length, second.best, second.reaches⟩

/-- `ApproximateBestSubset` from every value, whose sum reaches the target, ends with flags
whose sum is the total it reports, at least the target. -/
theorem approximateBestSubset_best {vs : List Int} {nTotalLower nTargetValue : Int} (bits : Nat → Nat → Bool)
    (iterations : Nat) (total : nTotalLower = vs.sum) (reaches : nTargetValue ≤ nTotalLower) :
    BestFor vs nTargetValue (approximateBestSubset vs nTotalLower nTargetValue bits iterations) :=
  BestFor.reps bits iterations 0 _
    ⟨List.length_replicate, by rw [selected_replicate_true]; exact total, reaches⟩

/-! ### The loop over the coins -/

section Scan

variable (withinChainLimit : TxHash → Bool) (nTargetValue nConfMine nConfTheirs : Int)

/-- The name test of the loop says whether the coin is a name output, when `IsNameScript`
returns. -/
theorem nameTest_eq {output : COutput}
    (decodes : output.nVersion = NAMECOIN_TX_VERSION → ∃ name, isNameScript output.scriptPubKey = .ok name) :
    (if output.nVersion = NAMECOIN_TX_VERSION then (isNameScript output.scriptPubKey).mapError SelectFault.scriptNum
      else pure false) = .ok (isNameOutput output) := by
  by_cases version : output.nVersion = NAMECOIN_TX_VERSION
  · obtain ⟨name, decoded⟩ := decodes version
    simp [isNameOutput, version, decoded, Except.mapError]
  · simp only [isNameOutput, version, if_false, decide_false, Bool.false_and]
    rfl

/-- What the loop has gathered after the coins `done`, where `bound` is the target plus
`MIN_CHANGE`: the eligible coins below the bound, in order, with their values and their total;
the smallest eligible coin from the bound on, or the sentinel when there is none below
`INT64_MAX`; and no eligible coin of exactly the target. -/
structure Scanned (bound : Int) (done : List COutput) (st : Lower) : Prop where
  values : ∀ entry ∈ st.vValue, entry.1 = entry.2.nValue
  small : st.vValue.map Prod.snd =
    done.filter fun c => eligible withinChainLimit nConfMine nConfTheirs c && decide (c.nValue < bound)
  total : st.nTotalLower = (st.vValue.map Prod.fst).sum
  larger : ∀ n c, st.coinLowestLarger = (n, some c) →
    c ∈ done ∧ eligible withinChainLimit nConfMine nConfTheirs c = true ∧ n = c.nValue ∧ bound ≤ n
  sentinel : st.coinLowestLarger.2 = none → st.coinLowestLarger.1 = INT64_MAX ∧
    ∀ c ∈ done, eligible withinChainLimit nConfMine nConfTheirs c = true → c.nValue < bound ∨ INT64_MAX ≤ c.nValue
  notExact : ∀ c ∈ done, eligible withinChainLimit nConfMine nConfTheirs c = true → c.nValue ≠ nTargetValue

variable {withinChainLimit nTargetValue nConfMine nConfTheirs}

theorem Scanned.init (bound : Int) :
    Scanned withinChainLimit nTargetValue nConfMine nConfTheirs bound [] Lower.init :=
  ⟨by simp [Lower.init], rfl, rfl, by simp [Lower.init], fun _ => ⟨rfl, by simp⟩, by simp⟩

/-- A coin the selection may not spend changes nothing. -/
theorem Scanned.skip {bound : Int} {done : List COutput} {st : Lower}
    (scanned : Scanned withinChainLimit nTargetValue nConfMine nConfTheirs bound done st) {output : COutput}
    (excluded : eligible withinChainLimit nConfMine nConfTheirs output = false) :
    Scanned withinChainLimit nTargetValue nConfMine nConfTheirs bound (done ++ [output]) st := by
  refine ⟨scanned.values, ?_, scanned.total, ?_, ?_, ?_⟩
  · rw [scanned.small, List.filter_append]
    simp [excluded]
  · intro n c same
    obtain ⟨mem, rest⟩ := scanned.larger n c same
    exact ⟨List.mem_append_left _ mem, rest⟩
  · intro none
    obtain ⟨sentinel, below⟩ := scanned.sentinel none
    refine ⟨sentinel, fun c mem elig => ?_⟩
    rcases List.mem_append.mp mem with mem | mem
    · exact below c mem elig
    · rw [List.mem_singleton.mp mem, excluded] at elig
      cases elig
  · intro c mem elig
    rcases List.mem_append.mp mem with mem | mem
    · exact scanned.notExact c mem elig
    · rw [List.mem_singleton.mp mem, excluded] at elig
      cases elig

/-- An eligible coin below the bound joins `vValue`. -/
theorem Scanned.addSmall {bound : Int} {done : List COutput} {st : Lower}
    (scanned : Scanned withinChainLimit nTargetValue nConfMine nConfTheirs bound done st) {output : COutput}
    (elig : eligible withinChainLimit nConfMine nConfTheirs output = true) (below : output.nValue < bound)
    (notTarget : output.nValue ≠ nTargetValue) :
    Scanned withinChainLimit nTargetValue nConfMine nConfTheirs bound (done ++ [output])
      { st with vValue := st.vValue ++ [(output.nValue, output)], nTotalLower := st.nTotalLower + output.nValue } := by
  refine ⟨?_, ?_, ?_, ?_, ?_, ?_⟩
  · intro entry mem
    rcases List.mem_append.mp mem with mem | mem
    · exact scanned.values entry mem
    · rw [List.mem_singleton.mp mem]
  · simp [scanned.small, List.filter_append, elig, below]
  · simp [scanned.total]
  · intro n c same
    obtain ⟨mem, rest⟩ := scanned.larger n c same
    exact ⟨List.mem_append_left _ mem, rest⟩
  · intro none
    obtain ⟨sentinel, smaller⟩ := scanned.sentinel none
    refine ⟨sentinel, fun c mem elig' => ?_⟩
    rcases List.mem_append.mp mem with mem | mem
    · exact smaller c mem elig'
    · rw [List.mem_singleton.mp mem]
      exact Or.inl below
  · intro c mem elig'
    rcases List.mem_append.mp mem with mem | mem
    · exact scanned.notExact c mem elig'
    · rw [List.mem_singleton.mp mem]
      exact notTarget

/-- An eligible coin from the bound on becomes `coinLowestLarger` when it is below the one
kept, and is passed over otherwise. -/
theorem Scanned.large {bound : Int} {done : List COutput} {st : Lower}
    (scanned : Scanned withinChainLimit nTargetValue nConfMine nConfTheirs bound done st) {output : COutput}
    (elig : eligible withinChainLimit nConfMine nConfTheirs output = true) (above : bound ≤ output.nValue)
    (notTarget : output.nValue ≠ nTargetValue) :
    Scanned withinChainLimit nTargetValue nConfMine nConfTheirs bound (done ++ [output])
      (if output.nValue < st.coinLowestLarger.1 then { st with coinLowestLarger := (output.nValue, some output) }
        else st) := by
  have notSmall : decide (output.nValue < bound) = false := decide_eq_false (not_lt.mpr above)
  have small : st.vValue.map Prod.snd = (done ++ [output]).filter
      fun c => eligible withinChainLimit nConfMine nConfTheirs c && decide (c.nValue < bound) := by
    simp [scanned.small, List.filter_append, notSmall]
  have exact : ∀ c ∈ done ++ [output], eligible withinChainLimit nConfMine nConfTheirs c = true →
      c.nValue ≠ nTargetValue := by
    intro c mem elig'
    rcases List.mem_append.mp mem with mem | mem
    · exact scanned.notExact c mem elig'
    · rw [List.mem_singleton.mp mem]
      exact notTarget
  split_ifs with lower
  · refine ⟨scanned.values, small, scanned.total, ?_, by simp, exact⟩
    intro n c same
    simp only [Prod.mk.injEq, Option.some.injEq] at same
    obtain ⟨rfl, rfl⟩ := same
    exact ⟨List.mem_append_right _ (List.mem_singleton_self _), elig, rfl, above⟩
  · refine ⟨scanned.values, small, scanned.total, ?_, ?_, exact⟩
    · intro n c same
      obtain ⟨mem, rest⟩ := scanned.larger n c same
      exact ⟨List.mem_append_left _ mem, rest⟩
    · intro none
      obtain ⟨sentinel, smaller⟩ := scanned.sentinel none
      refine ⟨sentinel, fun c mem elig' => ?_⟩
      rcases List.mem_append.mp mem with mem | mem
      · exact smaller c mem elig'
      · rw [List.mem_singleton.mp mem]
        right
        rw [← sentinel]
        exact not_lt.mp lower

/-- The loop over the coins, when `nTargetValue + MIN_CHANGE` is the `int64_t` value `bound`
and `IsNameScript` returns on every coin it reaches: it stops at an eligible coin of exactly
the target, or goes through every coin and keeps what `Scanned` says. -/
theorem scanCoins_spec {bound : Int} (fits : withChange nTargetValue = .ok bound) :
    ∀ (rest done : List COutput) (st : Lower),
      Scanned withinChainLimit nTargetValue nConfMine nConfTheirs bound done st →
      (∀ c ∈ rest, passesFilters withinChainLimit nConfMine nConfTheirs c = true →
        c.nVersion = NAMECOIN_TX_VERSION → ∃ name, isNameScript c.scriptPubKey = .ok name) →
      ∃ result, scanCoins withinChainLimit nTargetValue nConfMine nConfTheirs rest st = .ok result ∧
        match result with
        | .exact coin => coin ∈ rest ∧ eligible withinChainLimit nConfMine nConfTheirs coin = true ∧
            coin.nValue = nTargetValue
        | .lower st' => Scanned withinChainLimit nTargetValue nConfMine nConfTheirs bound (done ++ rest) st'
  | [], done, st, scanned, _ => ⟨.lower st, rfl, by rw [List.append_nil]; exact scanned⟩
  | output :: rest, done, st, scanned, decodes => by
    have later : ∀ c ∈ rest, passesFilters withinChainLimit nConfMine nConfTheirs c = true →
        c.nVersion = NAMECOIN_TX_VERSION → ∃ name, isNameScript c.scriptPubKey = .ok name :=
      fun c mem => decodes c (List.mem_cons_of_mem output mem)
    -- the rest of the coins after this one, from a state that accounts for it
    have next : ∀ st', Scanned withinChainLimit nTargetValue nConfMine nConfTheirs bound (done ++ [output]) st' →
        ∃ result, scanCoins withinChainLimit nTargetValue nConfMine nConfTheirs rest st' = .ok result ∧
          match result with
          | .exact coin => coin ∈ output :: rest ∧ eligible withinChainLimit nConfMine nConfTheirs coin = true ∧
              coin.nValue = nTargetValue
          | .lower st'' => Scanned withinChainLimit nTargetValue nConfMine nConfTheirs bound (done ++ output :: rest) st'' := by
      intro st' scanned'
      obtain ⟨result, run, holds⟩ := scanCoins_spec fits rest (done ++ [output]) st' scanned' later
      refine ⟨result, run, ?_⟩
      cases result with
      | exact coin => exact ⟨List.mem_cons_of_mem output holds.1, holds.2⟩
      | lower st'' => simpa using holds
    rw [scanCoins]
    by_cases passes : passesFilters withinChainLimit nConfMine nConfTheirs output = true
    · rw [if_neg (by simp [passes]), nameTest_eq (decodes output List.mem_cons_self passes), Except.ok_bind]
      by_cases name : isNameOutput output = true
      · rw [if_pos name]
        exact next st (scanned.skip (by simp [eligible, name]))
      · have elig : eligible withinChainLimit nConfMine nConfTheirs output = true := by
          simp [eligible, passes, name]
        rw [if_neg name]
        by_cases target : output.nValue = nTargetValue
        · rw [if_pos target]
          exact ⟨.exact output, rfl, List.mem_cons_self, elig, target⟩
        · rw [if_neg target, fits, Except.ok_bind]
          by_cases below : output.nValue < bound
          · rw [if_pos below]
            exact next _ (scanned.addSmall elig below target)
          · have step := scanned.large elig (not_lt.mp below) target
            rw [if_neg below]
            split_ifs at step ⊢
            · exact next _ step
            · exact next _ step
    · rw [if_pos (by simp [passes])]
      exact next st (scanned.skip (by simp [eligible, passes]))

end Scan

/-! ### What the selection returns -/

section Result

variable {withinChainLimit : TxHash → Bool} {nTargetValue nConfMine nConfTheirs : Int}

/-- What a successful selection returns: distinct coins, each given and eligible, and their
total, at least the target. -/
structure Picks (withinChainLimit : TxHash → Bool) (nConfMine nConfTheirs nTargetValue : Int)
    (vCoins setCoinsRet : List COutput) (nValueRet : Int) : Prop where
  nodup : setCoinsRet.Nodup
  spendable : ∀ c ∈ setCoinsRet, c ∈ vCoins ∧ eligible withinChainLimit nConfMine nConfTheirs c = true
  total : nValueRet = (setCoinsRet.map COutput.nValue).sum
  reaches : nTargetValue ≤ nValueRet

/-- One eligible coin of at least the target is a selection. -/
theorem Picks.single {vCoins : List COutput} {coin : COutput} (given : coin ∈ vCoins)
    (elig : eligible withinChainLimit nConfMine nConfTheirs coin = true) (reaches : nTargetValue ≤ coin.nValue) :
    Picks withinChainLimit nConfMine nConfTheirs nTargetValue vCoins [coin] coin.nValue :=
  ⟨List.nodup_singleton coin, fun c mem => by rw [List.mem_singleton.mp mem]; exact ⟨given, elig⟩,
    by simp, reaches⟩

/-- Entries of `vValue` with distinct coins, each given and eligible and paired with its
value: whatever the flags select is a selection, if its total reaches the target. -/
theorem Picks.selected {vCoins : List COutput} {entries : List (Int × COutput)} (flags : List Bool)
    (distinct : (entries.map Prod.snd).Nodup)
    (valid : ∀ e ∈ entries, e.2 ∈ vCoins ∧ eligible withinChainLimit nConfMine nConfTheirs e.2 = true ∧ e.1 = e.2.nValue)
    (reaches : nTargetValue ≤ ((selected entries flags).map Prod.fst).sum) :
    Picks withinChainLimit nConfMine nConfTheirs nTargetValue vCoins (takeSelected entries flags).1
      (takeSelected entries flags).2 := by
  have sub := selected_sublist entries flags
  refine ⟨distinct.sublist (sub.map Prod.snd), fun c mem => ?_, ?_, reaches⟩
  · simp only [takeSelected, List.mem_map] at mem
    obtain ⟨e, picked, rfl⟩ := mem
    obtain ⟨given, elig, -⟩ := valid e (sub.subset picked)
    exact ⟨given, elig⟩
  · simp only [takeSelected, List.map_map]
    congr 1
    exact List.map_congr_left fun e mem => (valid e (sub.subset mem)).2.2

/-- The entries of `vValue` after the loop: distinct coins, each given and eligible, with
their values. -/
theorem Scanned.entries {bound : Int} {shuffled : List COutput} {st : Lower}
    (scanned : Scanned withinChainLimit nTargetValue nConfMine nConfTheirs bound shuffled st)
    (distinct : shuffled.Nodup) :
    (st.vValue.map Prod.snd).Nodup ∧
      ∀ e ∈ st.vValue, e.2 ∈ shuffled ∧ eligible withinChainLimit nConfMine nConfTheirs e.2 = true ∧ e.1 = e.2.nValue := by
  refine ⟨by rw [scanned.small]; exact distinct.filter _, fun e mem => ?_⟩
  have kept : e.2 ∈ st.vValue.map Prod.snd := List.mem_map_of_mem mem
  rw [scanned.small, List.mem_filter, Bool.and_eq_true] at kept
  exact ⟨kept.1, kept.2.1, scanned.values e mem⟩

/-- `nTotalLower` is the total of the coins in `vValue`. -/
theorem Scanned.lower_eq_sum {bound : Int} {shuffled : List COutput} {st : Lower}
    (scanned : Scanned withinChainLimit nTargetValue nConfMine nConfTheirs bound shuffled st) :
    st.nTotalLower = ((shuffled.filter fun c => eligible withinChainLimit nConfMine nConfTheirs c &&
      decide (c.nValue < bound)).map COutput.nValue).sum := by
  rw [scanned.total, ← scanned.small, List.map_map]
  congr 1
  exact List.map_congr_left fun e mem => scanned.values e mem

/-- The coins below the bound are some of the eligible ones, so over values that are not
negative their total is at most the eligible coins'. -/
theorem Scanned.lower_le {bound : Int} {shuffled : List COutput} {st : Lower}
    (scanned : Scanned withinChainLimit nTargetValue nConfMine nConfTheirs bound shuffled st)
    (nonneg : ∀ c ∈ shuffled, 0 ≤ c.nValue) :
    st.nTotalLower ≤ ((shuffled.filter (eligible withinChainLimit nConfMine nConfTheirs)).map COutput.nValue).sum := by
  rw [scanned.lower_eq_sum]
  apply List.Sublist.sum_le_sum
  · apply List.Sublist.map
    apply List.monotone_filter_right shuffled
    intro c both
    rw [Bool.and_eq_true] at both
    exact both.1
  · intro v mem
    obtain ⟨c, inFilter, rfl⟩ := List.mem_map.mp mem
    exact nonneg c (List.mem_filter.mp inFilter).1

/-- Without a coin from the bound on, every eligible coin lies below it, so `nTotalLower` is
the total of the eligible coins. -/
theorem Scanned.lower_eq {bound : Int} {shuffled : List COutput} {st : Lower}
    (scanned : Scanned withinChainLimit nTargetValue nConfMine nConfTheirs bound shuffled st)
    (noLarger : st.coinLowestLarger.2 = none) (belowMax : ∀ c ∈ shuffled, c.nValue < INT64_MAX) :
    st.nTotalLower = ((shuffled.filter (eligible withinChainLimit nConfMine nConfTheirs)).map COutput.nValue).sum := by
  rw [scanned.lower_eq_sum]
  obtain ⟨-, below⟩ := scanned.sentinel noLarger
  congr 2
  apply List.filter_congr
  intro c mem
  by_cases elig : eligible withinChainLimit nConfMine nConfTheirs c = true
  · have small := (below c mem elig).resolve_right (not_le.mpr (belowMax c mem))
    simp [elig, small]
  · simp [elig]

theorem BestFor.mono {vs : List Int} {low high : Int} {best : List Bool × Int} (reached : BestFor vs high best)
    (le : low ≤ high) : BestFor vs low best :=
  ⟨reached.length, reached.sum, le.trans reached.reaches⟩

/-- The subset the stochastic approximation settles on, from coins whose total is above the
target: flags over the coins whose sum is the reported total, at least the target. -/
theorem bestSubset_best (draws : Draws) {vValue : List (Int × COutput)} {nTotalLower plus : Int}
    (total : nTotalLower = (vValue.map Prod.fst).sum) (above : nTargetValue < nTotalLower) (le : nTargetValue ≤ plus) :
    BestFor (vValue.map Prod.fst) nTargetValue (bestSubset draws vValue nTotalLower nTargetValue plus) := by
  have first := approximateBestSubset_best draws.firstBits 1000 total (le_of_lt above)
  unfold bestSubset
  generalize approximateBestSubset (vValue.map Prod.fst) nTotalLower nTargetValue draws.firstBits 1000 = best at first ⊢
  obtain ⟨vfBest, nBest⟩ := best
  dsimp only
  split_ifs with second
  · exact (approximateBestSubset_best draws.secondBits 1000 total second.2).mono le
  · exact first

/-- An eligible coin of the shuffled coins is at most their eligible total. -/
theorem le_eligibleSum {shuffled : List COutput} (nonneg : ∀ c ∈ shuffled, 0 ≤ c.nValue) {coin : COutput}
    (mem : coin ∈ shuffled) (elig : eligible withinChainLimit nConfMine nConfTheirs coin = true) :
    coin.nValue ≤ ((shuffled.filter (eligible withinChainLimit nConfMine nConfTheirs)).map COutput.nValue).sum := by
  apply List.single_le_sum
  · intro v inValues
    obtain ⟨c, inFilter, rfl⟩ := List.mem_map.mp inValues
    exact nonneg c (List.mem_filter.mp inFilter).1
  · exact List.mem_map_of_mem (List.mem_filter.mpr ⟨mem, elig⟩)

/-- `SelectCoinsMinConf` is sound and complete for every outcome of its random choices, for a
target whose sum with `MIN_CHANGE` fits `int64_t` and coins on which `IsNameScript` returns:
over distinct coins of values that are not negative and total at most `MAX_MONEY`, it returns
exactly when the coins it may spend reach the target, and then distinct such coins with their
exact total, at least the target. -/
theorem selectCoinsMinConf_spec (withinChainLimit : TxHash → Bool) (draws : Draws)
    {nTargetValue nConfMine nConfTheirs : Int} {vCoins : List COutput}
    (positive : 0 < nTargetValue) (fits : nTargetValue + MIN_CHANGE ≤ INT64_MAX)
    (distinct : vCoins.Nodup) (nonneg : ∀ c ∈ vCoins, 0 ≤ c.nValue)
    (money : (vCoins.map COutput.nValue).sum ≤ MAX_MONEY)
    (decodes : ∀ c ∈ vCoins, passesFilters withinChainLimit nConfMine nConfTheirs c = true →
      c.nVersion = NAMECOIN_TX_VERSION → ∃ name, isNameScript c.scriptPubKey = .ok name) :
    ∃ result, selectCoinsMinConf withinChainLimit draws nTargetValue nConfMine nConfTheirs vCoins = .ok result ∧
      (result.isSome ↔
        nTargetValue ≤ ((vCoins.filter (eligible withinChainLimit nConfMine nConfTheirs)).map COutput.nValue).sum) ∧
      ∀ setCoinsRet nValueRet, result = some (setCoinsRet, nValueRet) →
        Picks withinChainLimit nConfMine nConfTheirs nTargetValue vCoins setCoinsRet nValueRet := by
  have bound : withChange nTargetValue = .ok (nTargetValue + MIN_CHANGE) := by
    unfold withChange
    rw [int64_of_range (by unfold INT64_MIN MIN_CHANGE MIN_TX_FEE; omega) fits]
    rfl
  have change : nTargetValue < nTargetValue + MIN_CHANGE := by
    unfold MIN_CHANGE MIN_TX_FEE
    omega
  -- every coin is below `INT64_MAX`, the sentinel of `coinLowestLarger`
  have belowMax : ∀ c ∈ vCoins, c.nValue < INT64_MAX := by
    intro c mem
    have single := List.single_le_sum (fun v inValues => by
      obtain ⟨d, given, rfl⟩ := List.mem_map.mp inValues
      exact nonneg d given) c.nValue (List.mem_map_of_mem mem)
    unfold MAX_MONEY COIN at money
    unfold INT64_MAX
    omega
  unfold selectCoinsMinConf
  have perm := draws.shuffle_perm vCoins
  generalize draws.shuffle vCoins = shuffled at perm ⊢
  have given : ∀ c ∈ shuffled, c ∈ vCoins := fun c mem => perm.subset mem
  have shuffledNonneg : ∀ c ∈ shuffled, 0 ≤ c.nValue := fun c mem => nonneg c (given c mem)
  -- the eligible coins have the same total in the shuffled order
  have eligibleSum : ((shuffled.filter (eligible withinChainLimit nConfMine nConfTheirs)).map COutput.nValue).sum =
      ((vCoins.filter (eligible withinChainLimit nConfMine nConfTheirs)).map COutput.nValue).sum :=
    ((perm.filter _).map _).sum_eq
  rw [← eligibleSum]
  obtain ⟨scan, run, holds⟩ := scanCoins_spec bound shuffled [] Lower.init (Scanned.init _)
    fun c mem => decodes c (given c mem)
  rw [run, Except.ok_bind]
  cases scan with
  | exact coin =>
    -- a coin of exactly the target
    obtain ⟨mem, elig, target⟩ := holds
    refine ⟨some ([coin], coin.nValue), rfl, iff_of_true rfl ?_, ?_⟩
    · exact target ▸ le_eligibleSum shuffledNonneg mem elig
    · intro setCoinsRet nValueRet same
      cases same
      exact Picks.single (given coin mem) elig (le_of_eq target.symm)
  | lower st =>
    rw [List.nil_append] at holds
    have lower := holds.lower_le shuffledNonneg
    obtain ⟨entriesDistinct, entries⟩ := holds.entries (perm.nodup_iff.mpr distinct)
    have valid : ∀ e ∈ st.vValue, e.2 ∈ vCoins ∧ eligible withinChainLimit nConfMine nConfTheirs e.2 = true ∧
        e.1 = e.2.nValue := fun e mem =>
      ⟨given e.2 (entries e mem).1, (entries e mem).2⟩
    dsimp only
    by_cases equal : st.nTotalLower = nTargetValue
    · -- the coins below the bound make the target
      rw [if_pos equal]
      refine ⟨some (st.vValue.map Prod.snd, (st.vValue.map Prod.fst).sum), rfl, iff_of_true rfl (equal ▸ lower), ?_⟩
      intro setCoinsRet nValueRet same
      cases same
      have picks := Picks.selected (List.replicate st.vValue.length true) entriesDistinct valid
        (by rw [selected_replicate_true, ← holds.total, equal])
      simpa [takeSelected, selected_replicate_true] using picks
    rw [if_neg equal]
    by_cases less : st.nTotalLower < nTargetValue
    · rw [if_pos less]
      rcases larger : st.coinLowestLarger with ⟨n, _ | coin⟩
      · -- nothing reaches the target
        have total := holds.lower_eq (by rw [larger]) fun c mem => belowMax c (given c mem)
        refine ⟨none, rfl, iff_of_false (by simp) (by omega), fun _ _ same => by cases same⟩
      · -- the smallest coin from the bound on
        obtain ⟨mem, elig, rfl, above⟩ := holds.larger n coin larger
        refine ⟨some ([coin], coin.nValue), rfl, iff_of_true rfl ?_, ?_⟩
        · exact (change.trans_le above).le.trans (le_eligibleSum shuffledNonneg mem elig)
        · intro setCoinsRet nValueRet same
          cases same
          exact Picks.single (given coin mem) elig (change.trans_le above).le
    · -- the stochastic approximation, over the coins below the bound sorted by decreasing value
      rw [if_neg less, bound, Except.ok_bind]
      have more : nTargetValue < st.nTotalLower := lt_of_le_of_ne (not_lt.mp less) (Ne.symm equal)
      have sorted : (draws.sortByValue st.vValue).reverse.Perm st.vValue :=
        (List.reverse_perm _).trans (draws.sortByValue_perm _)
      generalize (draws.sortByValue st.vValue).reverse = vValue at sorted ⊢
      have total : st.nTotalLower = (vValue.map Prod.fst).sum := by
        rw [holds.total]
        exact ((sorted.map _).sum_eq).symm
      have best := bestSubset_best draws total more change.le
      generalize bestSubset draws vValue st.nTotalLower nTargetValue (nTargetValue + MIN_CHANGE) = chosen at best ⊢
      obtain ⟨vfBest, nBest⟩ := chosen
      have picks : Picks withinChainLimit nConfMine nConfTheirs nTargetValue vCoins (takeSelected vValue vfBest).1
          (takeSelected vValue vfBest).2 :=
        Picks.selected vfBest (sorted.map Prod.snd |>.nodup_iff.mpr entriesDistinct)
          (fun e mem => valid e (sorted.subset mem))
          (by rw [map_selected, ← best.sum]; exact best.reaches)
      have reaches : nTargetValue ≤ ((shuffled.filter (eligible withinChainLimit nConfMine nConfTheirs)).map
          COutput.nValue).sum := more.le.trans lower
      dsimp only
      rcases larger : st.coinLowestLarger with ⟨n, _ | coin⟩
      · exact ⟨some (takeSelected vValue vfBest), rfl, iff_of_true rfl reaches,
          fun _ _ same => by cases same; exact picks⟩
      · obtain ⟨mem, elig, rfl, above⟩ := holds.larger n coin larger
        dsimp only
        split_ifs
        · refine ⟨some ([coin], coin.nValue), rfl, iff_of_true rfl reaches, ?_⟩
          intro setCoinsRet nValueRet same
          cases same
          exact Picks.single (given coin mem) elig (change.trans_le above).le
        · exact ⟨some (takeSelected vValue vfBest), rfl, iff_of_true rfl reaches,
            fun _ _ same => by cases same; exact picks⟩

end Result

example :
    ∃ result, selectCoinsMinConf (fun _ => true) Draws.plain 5 0 0
        [⟨1, 1, 0, 3, [], 1, true, true⟩, ⟨2, 1, 0, 4, [], 1, true, true⟩] = .ok result ∧
      (result.isSome ↔ 5 ≤ (((([⟨1, 1, 0, 3, [], 1, true, true⟩, ⟨2, 1, 0, 4, [], 1, true, true⟩] : List COutput).filter
        (eligible (fun _ => true) 0 0)).map COutput.nValue).sum)) ∧
      ∀ setCoinsRet nValueRet, result = some (setCoinsRet, nValueRet) →
        Picks (fun _ => true) 0 0 5 [⟨1, 1, 0, 3, [], 1, true, true⟩, ⟨2, 1, 0, 4, [], 1, true, true⟩]
          setCoinsRet nValueRet :=
  selectCoinsMinConf_spec _ _ (by decide) (by decide) (by decide) (by decide) (by decide)
    fun c mem _ version => absurd version (by simp at mem; rcases mem with rfl | rfl <;> decide)

/-- Two slips make `SelectCoinsMinConf` throw instead of returning, whatever its random
choices. A target of `INT64_MAX` (which `fundrawtransaction` with `subtractFeeFromOutputs`
can reach) makes the loop compute `nTargetValue + MIN_CHANGE` outside `int64_t` at the first
eligible coin, unguarded. A coin of a `NAMECOIN_TX_VERSION` transaction whose script opens like
a name script with a five-byte rental-days push makes `DecodeNameScript` throw `scriptnum_error`
from `CScriptNum`, against its comment that it returns whether the script is correct. -/
theorem selectCoinsMinConf_throws (draws : Draws) :
    selectCoinsMinConf (fun _ => true) draws INT64_MAX 0 0 [⟨0, 1, 0, 1, [], 0, true, true⟩] = .error .overflow ∧
      selectCoinsMinConf (fun _ => true) draws 1 0 0
        [⟨0, NAMECOIN_TX_VERSION, 0, 1, [OP_1, OP_DROP, OP_0, 0x05, 1, 2, 3, 4, 5, OP_2DROP, OP_1], 0, true, true⟩] =
        .error (.scriptNum .overflow) := by
  constructor
  · rw [selectCoinsMinConf, List.perm_singleton.mp (draws.shuffle_perm _)]
    rfl
  · rw [selectCoinsMinConf, List.perm_singleton.mp (draws.shuffle_perm _)]
    rfl

end MFCoin.Wallet
