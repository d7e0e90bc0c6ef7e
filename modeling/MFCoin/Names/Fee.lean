/-
Module: MFCoin.Names.Fee
Purpose: The fee of a name operation (src/src/namecoin.cpp). `GetNameOpFee` takes a share of
  the last proof-of-work block's `nMint` for the rental days (and one more for a `name_new`),
  the square root of it in cents, a cent per 128 bytes of name and value, rounds up to a cent,
  divides by 100 and floors the result at `MIN_TX_FEE`; `IsNameFeeEnough` accepts a fee that
  covers it at one of the last ten proof-of-work blocks. Every `int64_t` sum and product is
  checked: a result outside `int64_t` is a signed overflow, which C++ leaves undefined, and
  `sqrt` of a negative count of cents is NaN, whose conversion back to `CAmount` is undefined
  too. For the rental days `checkNameValues` admits and an `nMint` in `MoneyRange`, the fee is
  defined exactly when `nRentalDays * nMint` fits `int64_t`, which fails from an `nMint` of
  about 252 coins on.
Trusted boundary: `CentRoot`, the double `sqrt(n) * CENT` converted back to `CAmount`, known
  to lie between `⌊√n⌋ * CENT` and `(⌊√n⌋ + 1) * CENT` for `n < 2 ^ 53` (the square root is
  correctly rounded, rounding is monotone and both ends are exact doubles). The fee reads only
  the `nMint` of the block `GetLastBlockIndex(pindex, false)` returns (`getLastBlockIndex` in
  MFCoin.Kernel.Pow); `IsNameFeeEnough` is given the `nMint` of the blocks its walk visits.
Main exports: CENT, FeeFault, int64, CentRoot, finishFee, getNameOpFee, isNameFeeEnough,
  MIN_TX_FEE_le_getNameOpFee, getNameOpFee_ok_iff, isNameFeeEnough_minFee, isNameFeeEnough_ok
-/
import MFCoin.Script.NameRoundTrip
import MFCoin.Kernel.StakeReward
import MFCoin.Encoding.Base58
import MFCoin.Names.Record

namespace MFCoin.Names

open MFCoin.Script MFCoin.Pow MFCoin.Encoding

/-- `CENT`. -/
def CENT : Int := 1000000

/-- `INT64_MIN`, `-2^63`. -/
def INT64_MIN : Int := -9223372036854775808

/-- `INT64_MAX`, `2^63 - 1`. -/
def INT64_MAX : Int := 9223372036854775807

/-- Where the arithmetic of the fee leaves defined behaviour. -/
inductive FeeFault where
  /-- a signed `int64_t` result out of range -/
  | overflow
  /-- `sqrt` of a negative number of cents: NaN, converted to `CAmount` -/
  | notANumber
deriving DecidableEq, Repr

/-- An `int64_t` sum or product whose exact value is `v`. -/
def int64 (v : Int) : Except FeeFault Int :=
  if INT64_MIN ≤ v ∧ v ≤ INT64_MAX then .ok v else .error .overflow

/-- `sqrt(n) * CENT` computed in double precision and converted back to `CAmount`, given by
the bounds it keeps: the results hold for every function within them, the double computation,
which keeps sub-cent digits, among them. -/
structure CentRoot where
  root : Nat → Int
  floor_le : ∀ n < 2 ^ 53, (Nat.sqrt n : Int) * CENT ≤ root n
  le_floor_succ : ∀ n < 2 ^ 53, root n ≤ ((Nat.sqrt n : Int) + 1) * CENT

/-- The steps of `GetNameOpFee` after the square root: a cent per 128 bytes of name and value
(the byte count converted to `int`), the rounding up to `CENT`, the division by 100 of
0.7.0mfc and the floor at `MIN_TX_FEE`. -/
def finishFee (txMinFee : Int) (name value : NameVal) : Except FeeFault Int := do
  let perBytes ← int64 (toInt32 ((name.length + value.length) / 128) * CENT)
  let txMinFee ← int64 (txMinFee + perBytes)
  -- round up to CENT
  let txMinFee ← int64 (txMinFee + (CENT - 1))
  let txMinFee ← int64 (txMinFee.tdiv CENT * CENT)
  -- reduce fee by 100 in 0.7.0mfc
  let txMinFee := txMinFee.tdiv 100
  return max txMinFee MIN_TX_FEE

/-- `GetNameOpFee(pindex, nRentalDays, op, name, value)`, where `nMint` is that of
`GetLastBlockIndex(pindex, false)`. -/
def getNameOpFee (sqrtCents : CentRoot) (nMint nRentalDays : Int) (op : NameOp) (name value : NameVal) :
    Except FeeFault Int := do
  if op = .delete then return MIN_TX_FEE
  -- 1% PoW per 365 days
  let txMinFee := (← int64 (nRentalDays * nMint)).tdiv (365 * 100)
  -- +1% PoW per operation itself
  let txMinFee ← (if op = .new then int64 (txMinFee + nMint.tdiv 100) else pure txMinFee)
  -- the square root is taken of the number of cents
  let cents := txMinFee.tdiv CENT
  if cents < 0 then throw .notANumber else finishFee (sqrtCents.root cents.toNat) name value

/-- The loop of `IsNameFeeEnough(nti, pindexBlock, txFee)` over the `nMint` of the
proof-of-work blocks its walk visits: the fee passes at the first block whose fee it covers. -/
def feeLoop (sqrtCents : CentRoot) (info : NameScriptInfo) (txFee : Int) : List Int → Except FeeFault Bool
  | [] => pure false
  | nMint :: rest => do
    let netFee ← getNameOpFee sqrtCents nMint info.nRentalDays info.op info.name info.value
    if txFee ≥ netFee then return true else feeLoop sqrtCents info txFee rest

/-- `IsNameFeeEnough(nti, pindexBlock, txFee)`: `mints` holds the `nMint` of the proof-of-work
blocks the walk reaches that have a `pprev`, most recent first; at most ten are compared. -/
def isNameFeeEnough (sqrtCents : CentRoot) (info : NameScriptInfo) (mints : List Int) (txFee : Int) :
    Except FeeFault Bool :=
  feeLoop sqrtCents info txFee (mints.take 10)

/-! ### Checked arithmetic -/

theorem int64_of_range {v : Int} (low : INT64_MIN ≤ v) (high : v ≤ INT64_MAX) : int64 v = .ok v := by
  rw [int64, if_pos ⟨low, high⟩]

theorem int64_of_gt {v : Int} (high : INT64_MAX < v) : int64 v = .error .overflow := by
  rw [int64, if_neg fun fits => absurd fits.2 (not_le.mpr high)]

/-! ### The fee -/

/-- Whatever the arithmetic before it, a fee that is defined is at least `MIN_TX_FEE`. -/
theorem MIN_TX_FEE_le_finishFee {txMinFee fee : Int} {name value : NameVal}
    (finished : finishFee txMinFee name value = .ok fee) : MIN_TX_FEE ≤ fee := by
  simp only [finishFee, Except.bind_eq_ok, Except.pure_eq_ok] at finished
  obtain ⟨_, _, _, _, _, _, _, _, rfl⟩ := finished
  exact le_max_right _ _

/-- A fee that is defined is `MIN_TX_FEE` for a `name_delete`, and otherwise what the last
steps make of some root. -/
theorem getNameOpFee_eq_ok {sqrtCents : CentRoot} {nMint nRentalDays fee : Int} {op : NameOp}
    {name value : NameVal} (computed : getNameOpFee sqrtCents nMint nRentalDays op name value = .ok fee) :
    (op = .delete ∧ fee = MIN_TX_FEE) ∨ ∃ txMinFee, finishFee txMinFee name value = .ok fee := by
  unfold getNameOpFee at computed
  by_cases deleted : op = .delete
  · rw [if_pos deleted] at computed
    exact Or.inl ⟨deleted, (Except.ok.inj computed).symm⟩
  · rw [if_neg deleted] at computed
    simp only [Except.bind_eq_ok] at computed
    obtain ⟨_, -, _, -, finished⟩ := computed
    -- the branch of a negative count throws, and `split_ifs` discards it
    split_ifs at finished
    exact Or.inr ⟨_, finished⟩

theorem MIN_TX_FEE_le_getNameOpFee {sqrtCents : CentRoot} {nMint nRentalDays fee : Int} {op : NameOp}
    {name value : NameVal} (computed : getNameOpFee sqrtCents nMint nRentalDays op name value = .ok fee) :
    MIN_TX_FEE ≤ fee := by
  rcases getNameOpFee_eq_ok computed with ⟨-, rfl⟩ | ⟨_, finished⟩
  · exact le_refl _
  · exact MIN_TX_FEE_le_finishFee finished

/-- From a count of cents in `[0, 2^62]`, with a name and a value that `checkNameValues`
admits, the last steps stay within `int64_t`. -/
theorem finishFee_ok {txMinFee : Int} (nonneg : 0 ≤ txMinFee) (small : txMinFee ≤ 2 ^ 62) {name value : NameVal}
    (names : name.length ≤ MAX_NAME_LENGTH) (values : value.length ≤ MAX_VALUE_LENGTH) :
    ∃ fee, finishFee txMinFee name value = .ok fee := by
  have count : (name.length + value.length) / 128 ≤ 164 := by
    unfold MAX_NAME_LENGTH MAX_VALUE_LENGTH at *
    omega
  unfold finishFee
  rw [toInt32_of_lt (by omega)]
  generalize (name.length + value.length) / 128 = k at count
  -- the sum rounded up is not negative, so `tdiv` is the floor and rounding only lowers it
  have sum : 0 ≤ txMinFee + (k : Int) * CENT + (CENT - 1) := by
    unfold CENT
    omega
  rw [int64_of_range (by unfold INT64_MIN CENT; omega) (by unfold INT64_MAX CENT; omega), Except.ok_bind,
    int64_of_range (by unfold INT64_MIN CENT; omega) (by unfold INT64_MAX CENT; omega), Except.ok_bind,
    int64_of_range (by unfold INT64_MIN CENT; omega) (by unfold INT64_MAX CENT; omega), Except.ok_bind,
    Int.tdiv_eq_ediv_of_nonneg sum,
    int64_of_range (by unfold INT64_MIN CENT; omega) (by unfold INT64_MAX CENT; omega), Except.ok_bind]
  exact ⟨_, rfl⟩

/-- The product of the rental days and `nMint` out of `int64_t` is an overflow, whatever
follows. -/
theorem getNameOpFee_overflow (sqrtCents : CentRoot) {nMint nRentalDays : Int} {op : NameOp}
    (name value : NameVal) (notDelete : op ≠ .delete) (exceeds : INT64_MAX < nRentalDays * nMint) :
    getNameOpFee sqrtCents nMint nRentalDays op name value = .error .overflow := by
  rw [getNameOpFee, if_neg notDelete, int64_of_gt exceeds]
  rfl

/-- The share of `nMint` a rental of `nRentalDays` days pays for, and the operation's own share
of a `name_new`, are at most `2 ^ 58` when the product fits `int64_t`. -/
theorem rentalShare_ok {nMint nRentalDays : Int} (op : NameOp) (mint : MoneyRange nMint) (days : 0 ≤ nRentalDays)
    (fits : nRentalDays * nMint ≤ INT64_MAX) :
    ∃ txMinFee, (if op = .new then int64 ((nRentalDays * nMint).tdiv (365 * 100) + nMint.tdiv 100)
      else pure ((nRentalDays * nMint).tdiv (365 * 100))) = .ok txMinFee ∧ 0 ≤ txMinFee ∧ txMinFee ≤ 2 ^ 58 := by
  have product : 0 ≤ nRentalDays * nMint := mul_nonneg days mint.1
  rw [Int.tdiv_eq_ediv_of_nonneg product, Int.tdiv_eq_ediv_of_nonneg mint.1]
  obtain ⟨positive, money⟩ := mint
  unfold MAX_MONEY COIN at money
  unfold INT64_MAX at fits
  split_ifs
  · exact ⟨_, int64_of_range (by unfold INT64_MIN; omega) (by unfold INT64_MAX; omega), by omega, by omega⟩
  · exact ⟨_, rfl, by omega, by omega⟩

/-- For an operation that `checkNameValues` admits and an `nMint` in `MoneyRange`, the fee is
defined exactly for a `name_delete` or when `nRentalDays * nMint` fits `int64_t`. -/
theorem getNameOpFee_ok_iff (sqrtCents : CentRoot) {info : NameScriptInfo} (valid : checkNameValues info = "")
    {nMint : Int} (mint : MoneyRange nMint) :
    (∃ fee, getNameOpFee sqrtCents nMint info.nRentalDays info.op info.name info.value = .ok fee) ↔
      info.op = .delete ∨ info.nRentalDays * nMint ≤ INT64_MAX := by
  obtain ⟨names, values, notNew, notUpdate, -⟩ := checkNameValues_eq_empty.mp valid
  by_cases deleted : info.op = .delete
  · refine ⟨fun _ => Or.inl deleted, fun _ => ⟨MIN_TX_FEE, ?_⟩⟩
    rw [getNameOpFee, if_pos deleted]
    rfl
  have days : 0 ≤ info.nRentalDays := by
    cases op : info.op with
    | new => exact le_of_lt (lt_of_lt_of_le zero_lt_one (not_lt.mp fun few => notNew ⟨op, few⟩))
    | update => exact not_lt.mp fun negative => notUpdate ⟨op, negative⟩
    | delete => exact absurd op deleted
  constructor
  · rintro ⟨fee, computed⟩
    refine Or.inr (not_lt.mp fun exceeds => ?_)
    rw [getNameOpFee_overflow sqrtCents _ _ deleted exceeds] at computed
    cases computed
  · rintro (deleted' | fits)
    · exact absurd deleted' deleted
    obtain ⟨txMinFee, share, nonneg, small⟩ := rentalShare_ok info.op mint days fits
    have product : 0 ≤ info.nRentalDays * nMint := mul_nonneg days mint.1
    have cents : 0 ≤ txMinFee.tdiv CENT := Int.tdiv_nonneg nonneg (by unfold CENT; omega)
    have reduces : getNameOpFee sqrtCents nMint info.nRentalDays info.op info.name info.value =
        finishFee (sqrtCents.root (txMinFee.tdiv CENT).toNat) info.name info.value := by
      rw [getNameOpFee, if_neg deleted, int64_of_range (by unfold INT64_MIN; omega) fits, Except.ok_bind]
      simp only [share, Except.ok_bind, if_neg (not_lt.mpr cents)]
    -- the count of cents is below `2 ^ 53`, so its root lies within `2 ^ 27` cents
    have centsSmall : (txMinFee.tdiv CENT).toNat < 2 ^ 53 := by
      rw [Int.tdiv_eq_ediv_of_nonneg nonneg]
      unfold CENT
      omega
    have rootSmall : Nat.sqrt (txMinFee.tdiv CENT).toNat < 2 ^ 27 := Nat.sqrt_lt.mpr (by omega)
    have low := sqrtCents.floor_le _ centsSmall
    have high := sqrtCents.le_floor_succ _ centsSmall
    rw [reduces]
    generalize sqrtCents.root (txMinFee.tdiv CENT).toNat = root at low high ⊢
    generalize Nat.sqrt (txMinFee.tdiv CENT).toNat = floor at low high rootSmall
    unfold CENT at low high
    exact finishFee_ok (by omega) (by omega) names values

/-! ### The check of a fee -/

section Loop

variable (sqrtCents : CentRoot) (info : NameScriptInfo) (txFee : Int)

/-- A fee that passes covers a fee of some block, so it is at least `MIN_TX_FEE`. -/
theorem feeLoop_minFee : ∀ {mints : List Int}, feeLoop sqrtCents info txFee mints = .ok true → MIN_TX_FEE ≤ txFee
  | [], loop => by cases loop
  | nMint :: rest, loop => by
    simp only [feeLoop, Except.bind_eq_ok] at loop
    obtain ⟨netFee, computed, next⟩ := loop
    split_ifs at next with covers
    · exact (MIN_TX_FEE_le_getNameOpFee computed).trans covers
    · exact feeLoop_minFee next

theorem isNameFeeEnough_minFee {mints : List Int} (enough : isNameFeeEnough sqrtCents info mints txFee = .ok true) :
    MIN_TX_FEE ≤ txFee :=
  feeLoop_minFee sqrtCents info txFee enough

/-- Over blocks whose fee is defined, the loop compares and answers whether the fee covers
the fee of one of them. -/
theorem feeLoop_ok : ∀ {mints : List Int},
    (∀ nMint ∈ mints, ∃ netFee, getNameOpFee sqrtCents nMint info.nRentalDays info.op info.name info.value = .ok netFee) →
    ∃ enough, feeLoop sqrtCents info txFee mints = .ok enough ∧
      (enough = true ↔ ∃ nMint ∈ mints, ∃ netFee,
        getNameOpFee sqrtCents nMint info.nRentalDays info.op info.name info.value = .ok netFee ∧ netFee ≤ txFee)
  | [], _ => ⟨false, rfl, by simp⟩
  | nMint :: rest, defined => by
    obtain ⟨netFee, computed⟩ := defined nMint List.mem_cons_self
    obtain ⟨enough, next, answer⟩ := feeLoop_ok fun m mem => defined m (List.mem_cons_of_mem nMint mem)
    by_cases covers : txFee ≥ netFee
    · refine ⟨true, ?_, iff_of_true rfl ⟨nMint, List.mem_cons_self, netFee, computed, covers⟩⟩
      simp only [feeLoop, computed, Except.ok_bind, if_pos covers]
      rfl
    · refine ⟨enough, ?_, ?_⟩
      · simp only [feeLoop, computed, Except.ok_bind, if_neg covers]
        exact next
      · rw [answer]
        constructor
        · rintro ⟨m, mem, fee, feeIs, le⟩
          exact ⟨m, List.mem_cons_of_mem nMint mem, fee, feeIs, le⟩
        · rintro ⟨m, mem, fee, feeIs, le⟩
          rcases List.mem_cons.mp mem with rfl | mem
          · rw [computed, Except.ok.injEq] at feeIs
            exact absurd (feeIs ▸ le) covers
          · exact ⟨m, mem, fee, feeIs, le⟩

/-- For an operation `checkNameValues` admits and blocks in `MoneyRange` whose product with the
rental days fits `int64_t`, `IsNameFeeEnough` is defined and passes exactly when the fee covers
the fee at one of the first ten blocks. -/
theorem isNameFeeEnough_ok (valid : checkNameValues info = "") {mints : List Int}
    (safe : ∀ nMint ∈ mints.take 10, MoneyRange nMint ∧ info.nRentalDays * nMint ≤ INT64_MAX) :
    ∃ enough, isNameFeeEnough sqrtCents info mints txFee = .ok enough ∧
      (enough = true ↔ ∃ nMint ∈ mints.take 10, ∃ netFee,
        getNameOpFee sqrtCents nMint info.nRentalDays info.op info.name info.value = .ok netFee ∧ netFee ≤ txFee) :=
  feeLoop_ok sqrtCents info txFee fun nMint mem =>
    (getNameOpFee_ok_iff sqrtCents valid (safe nMint mem).1).mpr (Or.inr (safe nMint mem).2)

end Loop

/-- A proof-of-work block that minted 300 coins (its reward of 25 coins and 275 coins of fees,
which its miner may pay to itself) and the longest rental `checkNameValues` admits: the product
of the rental days and `nMint` leaves `int64_t`, in `GetNameOpFee` and in an
`IsNameFeeEnough` that reaches that block first. -/
theorem getNameOpFee_rentalOverflow (sqrtCents : CentRoot) (txFee : Int) :
    checkNameValues ⟨.update, [], [], MAX_RENTAL_DAYS⟩ = "" ∧ MoneyRange (300 * COIN) ∧
      getNameOpFee sqrtCents (300 * COIN) MAX_RENTAL_DAYS .update [] [] = .error .overflow ∧
      isNameFeeEnough sqrtCents ⟨.update, [], [], MAX_RENTAL_DAYS⟩ [300 * COIN] txFee = .error .overflow := by
  have overflowed : getNameOpFee sqrtCents (300 * COIN) MAX_RENTAL_DAYS .update [] [] = .error .overflow :=
    getNameOpFee_overflow sqrtCents [] [] (by decide) (by decide)
  refine ⟨checkNameValues_eq_empty.mpr ⟨by decide, by decide, by decide, by decide, by decide⟩, by decide, overflowed, ?_⟩
  simp only [isNameFeeEnough, List.take_succ_cons, List.take_nil, feeLoop, overflowed]
  rfl

end MFCoin.Names
