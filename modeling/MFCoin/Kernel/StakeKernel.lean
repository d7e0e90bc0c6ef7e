/-
Module: MFCoin.Kernel.StakeKernel
Purpose: The proof-of-stake kernel check `CheckStakeKernelHash` (src/src/kernel.cpp): the
  age guards, the coin-day weight, and the comparison of the kernel hash with the weight
  times the target per coin-day. The product is taken in `arith_uint256` and wraps
  modulo `2^256`, where the ppcoin original multiplied `CBigNum`s; it is exact for every
  target below `2^219`, and not for targets near `powLimit`.
Trusted boundary: the kernel hash `Hash(ss)` and the stake modifier lookup
  `GetKernelStakeModifier` are inputs: the hash as its value, the lookup as whether it
  succeeded.
Main exports: IsProtocolV03, coinDayWeight, checkStakeKernelHash, kernelHashMeetsTarget,
  coinDayWeight_toNat_le, checkStakeKernelHash_eq, checkStakeKernelHash_exact,
  checkStakeKernelHash_exact_of_lt, checkStakeKernelHash_wraps
-/
import MFCoin.Kernel.Pow
import MFCoin.Primitives.Transaction

namespace MFCoin.Pow

open MFCoin.Arith

/-- `IsProtocolV03` (src/src/primitives/block.cpp). -/
def IsProtocolV03 (nTimeCoinStake : UInt32) : Bool := nTimeCoinStake.toNat ≥ 1363800000

/-- `nTimeWeight`: the age of the staked output capped at `nStakeMaxAge`, less
`nStakeMinAge` under the v0.3 protocol. -/
def timeWeight (params : ConsensusParams) (txPrevTime nTimeTx : UInt32) : Int :=
  min ((nTimeTx.toNat : Int) - txPrevTime.toNat) params.nStakeMaxAge -
    (if IsProtocolV03 nTimeTx then params.nStakeMinAge else 0)

/-- `bnCoinDayWeight = arith_uint256(nValueIn) * nTimeWeight / COIN / (24 * 60 * 60)`. -/
def coinDayWeight (params : ConsensusParams) (txPrevTime nTimeTx : UInt32) (nValueIn : Int) :
    ArithUint256 :=
  mulWord (ofInt64 nValueIn) (toUInt32 (timeWeight params txPrevTime nTimeTx)) /
    ofInt64 COIN / BitVec.ofNat 256 (24 * 60 * 60)

/-- `CheckStakeKernelHash`. `modifierFound` is the result of `GetKernelStakeModifier`,
which only the v0.3 protocol asks for; `hashProofOfStake` is the kernel hash. -/
def checkStakeKernelHash (params : ConsensusParams) (nBits : UInt32)
    (txPrevTime nTimeTx : UInt32) (nValueIn : Int) (modifierFound : Bool)
    (hashProofOfStake : ArithUint256) : Bool :=
  if nTimeTx < txPrevTime then false
  else if (txPrevTime.toNat : Int) + params.nStakeMinAge > nTimeTx.toNat then false
  else if IsProtocolV03 nTimeTx && !modifierFound then false
  else
    let bnTargetPerCoinDay := (setCompact nBits).value
    let bnCoinDayWeight := coinDayWeight params txPrevTime nTimeTx nValueIn
    !decide (hashProofOfStake > bnCoinDayWeight * bnTargetPerCoinDay)

/-- The kernel rule of the ppcoin protocol over unbounded integers: the hash is at most
the coin-day weight times the target. -/
def kernelHashMeetsTarget (params : ConsensusParams) (nBits : UInt32)
    (txPrevTime nTimeTx : UInt32) (nValueIn : Int) (hashProofOfStake : ArithUint256) : Prop :=
  hashProofOfStake.toNat ≤
    (coinDayWeight params txPrevTime nTimeTx nValueIn).toNat * (setCompact nBits).value.toNat

instance (params : ConsensusParams) (nBits txPrevTime nTimeTx : UInt32) (nValueIn : Int)
    (hashProofOfStake : ArithUint256) :
    Decidable (kernelHashMeetsTarget params nBits txPrevTime nTimeTx nValueIn hashProofOfStake) :=
  inferInstanceAs (Decidable (_ ≤ _))

/-! ### The coin-day weight -/

/-- The stake ages a network sets: `0 ≤ nStakeMinAge ≤ nStakeMaxAge < 2^32`. -/
structure ConsensusParams.StakeAges (params : ConsensusParams) : Prop where
  minAge_nonneg : 0 ≤ params.nStakeMinAge
  minAge_le_maxAge : params.nStakeMinAge ≤ params.nStakeMaxAge
  maxAge_lt : params.nStakeMaxAge < 2 ^ 32

theorem mainParams_stakeAges : mainParams.StakeAges := ⟨by decide, by decide, by decide⟩

section Weight

variable {params : ConsensusParams} {txPrevTime nTimeTx : UInt32}

/-- Past the minimum-age guard, the time weight lies between zero and `nStakeMaxAge`. -/
theorem timeWeight_mem (ages : params.StakeAges)
    (aged : (txPrevTime.toNat : Int) + params.nStakeMinAge ≤ nTimeTx.toNat) :
    0 ≤ timeWeight params txPrevTime nTimeTx ∧
      timeWeight params txPrevTime nTimeTx ≤ params.nStakeMaxAge := by
  have := ages.minAge_nonneg
  have := ages.minAge_le_maxAge
  unfold timeWeight
  split <;> omega

/-- For a value that fits `uint64_t`, the coin-day weight is computed without a wrap:
value times weight is below `2^96`. -/
theorem coinDayWeight_toNat (ages : params.StakeAges)
    (aged : (txPrevTime.toNat : Int) + params.nStakeMinAge ≤ nTimeTx.toNat) {nValueIn : Int}
    (nonneg : 0 ≤ nValueIn) (lt : nValueIn < 2 ^ 64) :
    (coinDayWeight params txPrevTime nTimeTx nValueIn).toNat =
      nValueIn.toNat * (timeWeight params txPrevTime nTimeTx).toNat / COIN.toNat /
        (24 * 60 * 60) := by
  obtain ⟨weightNonneg, weightLe⟩ := timeWeight_mem ages aged
  have weightLt : timeWeight params txPrevTime nTimeTx < 2 ^ 32 :=
    lt_of_le_of_lt weightLe ages.maxAge_lt
  have noWrap :
      nValueIn.toNat * (timeWeight params txPrevTime nTimeTx).toNat < 2 ^ 256 := by
    calc _ < 2 ^ 64 * 2 ^ 32 := Nat.mul_lt_mul'' (by omega) (by omega)
      _ ≤ 2 ^ 256 := by decide
  have coin : (ofInt64 COIN).toNat = COIN.toNat := toNat_ofInt64 (by decide) (by decide)
  simp only [coinDayWeight, BitVec.toNat_udiv, toNat_mulWord, toNat_ofInt64 nonneg lt,
    toNat_toUInt32 weightNonneg weightLt, coin, BitVec.toNat_ofNat]
  rw [Nat.mod_eq_of_lt noWrap]

/-- The coin-day weight of a value in `MoneyRange` is at most that of `MAX_MONEY` held
for `nStakeMaxAge`. -/
theorem coinDayWeight_toNat_le (ages : params.StakeAges)
    (aged : (txPrevTime.toNat : Int) + params.nStakeMinAge ≤ nTimeTx.toNat) {nValueIn : Int}
    (money : MoneyRange nValueIn) :
    (coinDayWeight params txPrevTime nTimeTx nValueIn).toNat ≤
      MAX_MONEY.toNat * params.nStakeMaxAge.toNat / COIN.toNat / (24 * 60 * 60) := by
  have belowWord : nValueIn < 2 ^ 64 := lt_of_le_of_lt money.2 (by decide)
  rw [coinDayWeight_toNat ages aged money.1 belowWord]
  have weightLe := (timeWeight_mem ages aged).2
  apply Nat.div_le_div_right
  apply Nat.div_le_div_right
  exact Nat.mul_le_mul (Int.toNat_le_toNat money.2) (Int.toNat_le_toNat weightLe)

end Weight

/-! ### The comparison -/

section Comparison

variable {params : ConsensusParams} {nBits txPrevTime nTimeTx : UInt32} {nValueIn : Int}
  {modifierFound : Bool} {hashProofOfStake : ArithUint256}

/-- Past its guards, `CheckStakeKernelHash` compares the hash with the product of weight
and target modulo `2^256`. -/
theorem checkStakeKernelHash_eq (ages : params.StakeAges)
    (aged : (txPrevTime.toNat : Int) + params.nStakeMinAge ≤ nTimeTx.toNat)
    (found : IsProtocolV03 nTimeTx = true → modifierFound = true) :
    checkStakeKernelHash params nBits txPrevTime nTimeTx nValueIn modifierFound
        hashProofOfStake =
      decide (hashProofOfStake.toNat ≤
        (coinDayWeight params txPrevTime nTimeTx nValueIn).toNat *
          (setCompact nBits).value.toNat % 2 ^ 256) := by
  have := ages.minAge_nonneg
  have inOrder : ¬nTimeTx < txPrevTime := by
    rw [UInt32.lt_iff_toNat_lt]
    omega
  have oldEnough : ¬(txPrevTime.toNat : Int) + params.nStakeMinAge > nTimeTx.toNat := by
    omega
  have lookedUp : (IsProtocolV03 nTimeTx && !modifierFound) = false := by
    cases v03 : IsProtocolV03 nTimeTx <;> simp_all
  simp only [checkStakeKernelHash, if_neg inOrder, if_neg oldEnough, lookedUp,
    Bool.false_eq_true, if_false, gt_iff_lt, BitVec.lt_def, BitVec.toNat_mul, ← decide_not,
    Nat.not_lt]

/-- Where the product of weight and target stays below `2^256`, the check is the kernel
rule over unbounded integers. -/
theorem checkStakeKernelHash_exact (ages : params.StakeAges)
    (aged : (txPrevTime.toNat : Int) + params.nStakeMinAge ≤ nTimeTx.toNat)
    (found : IsProtocolV03 nTimeTx = true → modifierFound = true)
    (noWrap : (coinDayWeight params txPrevTime nTimeTx nValueIn).toNat *
      (setCompact nBits).value.toNat < 2 ^ 256) :
    checkStakeKernelHash params nBits txPrevTime nTimeTx nValueIn modifierFound
        hashProofOfStake = true ↔
      kernelHashMeetsTarget params nBits txPrevTime nTimeTx nValueIn hashProofOfStake := by
  rw [checkStakeKernelHash_eq ages aged found, Nat.mod_eq_of_lt noWrap]
  simp [kernelHashMeetsTarget]

/-- On the main network every target below `2^219` gives the exact rule: a value in
`MoneyRange` staked for at most 90 days weighs at most `9 * 10^10 < 2^37` coin-days. -/
theorem checkStakeKernelHash_exact_of_lt
    (aged : (txPrevTime.toNat : Int) + mainParams.nStakeMinAge ≤ nTimeTx.toNat)
    (found : IsProtocolV03 nTimeTx = true → modifierFound = true)
    (money : MoneyRange nValueIn) (target : (setCompact nBits).value.toNat < 2 ^ 219) :
    checkStakeKernelHash mainParams nBits txPrevTime nTimeTx nValueIn modifierFound
        hashProofOfStake = true ↔
      kernelHashMeetsTarget mainParams nBits txPrevTime nTimeTx nValueIn hashProofOfStake := by
  apply checkStakeKernelHash_exact mainParams_stakeAges aged found
  have weight := coinDayWeight_toNat_le mainParams_stakeAges aged money
  have maxWeight : MAX_MONEY.toNat * mainParams.nStakeMaxAge.toNat / COIN.toNat /
      (24 * 60 * 60) < 2 ^ 37 := by decide
  calc _ < 2 ^ 37 * 2 ^ 219 := Nat.mul_lt_mul'' (by omega) target
    _ = 2 ^ 256 := by rw [← Nat.pow_add]

end Comparison

/-- At the compact form of `powLimit`, which the first proof-of-stake blocks get as
`bnInitialHashTarget`, a full-age stake of `MAX_MONEY` takes the product past `2^256`.
The hash `0xfffff0 * 2^232` meets the unbounded rule, the wrapped product is below it and
the check fails; a stake of 0.211 coins of the same age and hash passes. -/
theorem checkStakeKernelHash_wraps :
    (setCompact 0x200fffff).value ≤ mainParams.powLimit ∧
    kernelHashMeetsTarget mainParams 0x200fffff 1500000000 1507776000 MAX_MONEY
      (BitVec.ofNat 256 (0xfffff0 * 2 ^ 232)) ∧
    checkStakeKernelHash mainParams 0x200fffff 1500000000 1507776000 MAX_MONEY true
      (BitVec.ofNat 256 (0xfffff0 * 2 ^ 232)) = false ∧
    checkStakeKernelHash mainParams 0x200fffff 1500000000 1507776000 21100000 true
      (BitVec.ofNat 256 (0xfffff0 * 2 ^ 232)) = true := by
  decide

end MFCoin.Pow
