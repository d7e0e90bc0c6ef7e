/-
Module: MFCoin.Kernel.StakeReward
Purpose: The coinstake reward limit (src/src/validation.cpp): `GetMfc7POSReward`, which sums
  the coin age of the staked inputs in `arith_uint256` and pays 10% a year of it rounded to
  `TX_DP_AMOUNT`, `GetMinFee` (src/src/amount.cpp), and the bound `CheckTxInputs` compares
  the stake reward with. An input is converted with `arith_uint256(nValueIn)`, which reads
  a negative `CAmount` as `2^64` more: the reward is the coin-age formula for inputs that
  each lie in `MoneyRange`, as `CheckTxInputs` checks before it asks for the reward.
Trusted boundary: the block files behind the transaction index are read through
  `readTxIndex`, which gives the stored transaction or says it is missing or unreadable.
Main exports: TxIndexRead, satSecondLoop, getMfc7POSReward, getMinFee, coinstakeLimit,
  inputCoinAge, coinAge, stakeReward, InputConsistent, satSecondLoop_eq,
  getMfc7POSReward_eq, getMfc7POSReward_negativeInput
-/
import MFCoin.Kernel.StakeKernel
import MFCoin.Coins.Coins

namespace MFCoin.Pow

open MFCoin.Arith MFCoin.CoinsView

/-- `SUBCENT`, the unit rewards are rounded to. -/
def TX_DP_AMOUNT : Int := 10000

/-- `MIN_TX_FEE`. -/
def MIN_TX_FEE : Int := 10000

/-- What `pblocktree->ReadTxIndex` and the read from the block file give for a hash. -/
inductive TxIndexRead where
  | missing
  | unreadable
  | found (txPrev : Transaction)
deriving DecidableEq, Repr

/-- The input loop of `GetMfc7POSReward`, accumulating `bnSatSecond`. An input whose
transaction the view lacks, or that is younger than `nStakeMinAge`, adds nothing; a
timestamp violation, a disabled or failing transaction index, or a transaction whose
hash differs makes the whole call fail. `dt` is a difference of two `uint32_t`s. -/
def satSecondLoop (params : ConsensusParams) (view : TxHash → Option Coins) (fTxIndex : Bool)
    (readTxIndex : TxHash → TxIndexRead) (nTime : UInt32) :
    List TxIn → ArithUint256 → Option ArithUint256
  | [], bnSatSecond => some bnSatSecond
  | txin :: rest, bnSatSecond =>
    match view txin.prevout.hash with
    | none => satSecondLoop params view fTxIndex readTxIndex nTime rest bnSatSecond
    | some coins =>
      if nTime < coins.nTime then none
      else if !fTxIndex then none
      else match readTxIndex txin.prevout.hash with
        | .missing => none
        | .unreadable => none
        | .found txPrev =>
          if txPrev.hash ≠ txin.prevout.hash then none
          else if (txPrev.nTime.toNat : Int) + params.nStakeMinAge > nTime.toNat then
            satSecondLoop params view fTxIndex readTxIndex nTime rest bnSatSecond
          else match txPrev.vout[txin.prevout.n.toNat]? with
            -- indexing past `vout` is undefined in the source; the model fails there
            | none => none
            | some out =>
              let dt : Int := (nTime - txPrev.nTime).toNat
              if dt < 0 then none
              else satSecondLoop params view fTxIndex readTxIndex nTime rest
                (bnSatSecond + mulWord (ofInt64 out.nValue) (toUInt32 dt))

/-- `GetMfc7POSReward`: `none` where the source returns `false`. The last step divides a
`uint64_t` by the `CAmount` `TX_DP_AMOUNT`, which converts to `uint64_t`, and stores the
product in a `CAmount`. -/
def getMfc7POSReward (params : ConsensusParams) (view : TxHash → Option Coins)
    (fTxIndex : Bool) (readTxIndex : TxHash → TxIndexRead) (tx : Transaction) : Option Int :=
  if tx.IsCoinBase then some 0
  else do
    let bnSatSecond ← satSecondLoop params view fTxIndex readTxIndex tx.nTime tx.vin 0
    let bnSatYr := bnSatSecond / BitVec.ofNat 256 (365 * 24 * 3600)
    let low := getLow64 (mulWord bnSatYr 10 / BitVec.ofNat 256 100)
    some (toInt64 (low / TX_DP_AMOUNT.toNat * TX_DP_AMOUNT.toNat % 2 ^ 64))

/-- `GetMinFee` of a transaction of `nBytes` serialized bytes: a `size_t` product, stored
in a `CAmount`, and `MAX_MONEY` where that is out of range. -/
def getMinFee (nBytes : Nat) : Int :=
  let nMinFee := toInt64 ((1 + nBytes / (10 * 1024)) * MIN_TX_FEE.toNat % 2 ^ 64)
  if MoneyRange nMinFee then nMinFee else MAX_MONEY

/-- The bound `CheckTxInputs` puts on a coinstake's reward, `nLimit - tx.GetMinFee() +
MIN_TX_FEE`, over unbounded integers. -/
def coinstakeLimit (nLimit : Int) (nBytes : Nat) : Int := nLimit - getMinFee nBytes + MIN_TX_FEE

/-! ### The rule the reward is meant to follow -/

/-- The coin age of one input, read off the view: value times age for an output at least
`nStakeMinAge` old, and nothing otherwise. -/
def inputCoinAge (params : ConsensusParams) (view : TxHash → Option Coins) (nTime : UInt32)
    (txin : TxIn) : Int :=
  match view txin.prevout.hash with
  | none => 0
  | some coins =>
    match coins.vout[txin.prevout.n.toNat]? with
    | none => 0
    | some out =>
      if (coins.nTime.toNat : Int) + params.nStakeMinAge ≤ nTime.toNat then
        out.nValue * (nTime.toNat - coins.nTime.toNat)
      else 0

/-- The coin age of a transaction: the sum over its inputs. -/
def coinAge (params : ConsensusParams) (view : TxHash → Option Coins) (tx : Transaction) :
    Int :=
  (tx.vin.map (inputCoinAge params view tx.nTime)).sum

/-- 10% a year of a coin age in satoshi-seconds, rounded down to `TX_DP_AMOUNT`. -/
def stakeReward (coinAge : Int) : Int :=
  TX_DP_AMOUNT * (coinAge / (365 * 24 * 3600) * 10 / 100 / TX_DP_AMOUNT)

/-- The value an input spends, read off the view. -/
def inputValue (view : TxHash → Option Coins) (txin : TxIn) : Int :=
  match view txin.prevout.hash with
  | none => 0
  | some coins =>
    match coins.vout[txin.prevout.n.toNat]? with
    | none => 0
    | some out => out.nValue

/-- An input as the reward rule takes it: its transaction is in the view with an output at
the input's index and a timestamp no later than `nTime`, and the transaction index returns
a transaction of that hash with the same timestamp and output. -/
structure InputConsistent (view : TxHash → Option Coins) (readTxIndex : TxHash → TxIndexRead)
    (nTime : UInt32) (txin : TxIn) (coins : Coins) (txPrev : Transaction) (out : TxOut) :
    Prop where
  inView : view txin.prevout.hash = some coins
  output : coins.vout[txin.prevout.n.toNat]? = some out
  notLater : coins.nTime ≤ nTime
  indexed : readTxIndex txin.prevout.hash = .found txPrev
  sameHash : txPrev.hash = txin.prevout.hash
  sameTime : txPrev.nTime = coins.nTime
  sameOutput : txPrev.vout[txin.prevout.n.toNat]? = some out

/-! ### The coin-age loop -/

/-- A value and an age that fit their `int64_t` and `uint32_t` multiply without a wrap. -/
theorem mulWord_ofInt64 {v dt : Int} (value : 0 ≤ v ∧ v < 2 ^ 64) (time : 0 ≤ dt ∧ dt < 2 ^ 32) :
    mulWord (ofInt64 v) (toUInt32 dt) = BitVec.ofInt 256 (v * dt) := by
  apply BitVec.eq_of_toNat_eq
  have product : v * dt < 2 ^ 256 := by
    calc v * dt ≤ v * 2 ^ 32 := Int.mul_le_mul_of_nonneg_left time.2.le value.1
      _ < 2 ^ 64 * 2 ^ 32 := Int.mul_lt_mul_of_pos_right value.2 (by decide)
      _ ≤ 2 ^ 256 := by decide
  have word : ((2 ^ 256 : Nat) : Int) = 2 ^ 256 := by decide
  rw [toNat_mulWord, toNat_ofInt64 value.1 value.2, toNat_toUInt32 time.1 time.2,
    BitVec.toNat_ofInt, word, Int.emod_eq_of_lt (Int.mul_nonneg value.1 time.1) product,
    Int.toNat_mul value.1 time.1]
  apply Nat.mod_eq_of_lt
  rw [← Int.toNat_mul value.1 time.1]
  omega

section Loop

variable {params : ConsensusParams} {view : TxHash → Option Coins}
  {readTxIndex : TxHash → TxIndexRead} {nTime : UInt32}

/-- A consistent input with a value in `MoneyRange` adds its coin age to `bnSatSecond`. -/
theorem satSecondLoop_cons {txin : TxIn} {rest : List TxIn} {acc : ArithUint256}
    {coins : Coins} {txPrev : Transaction} {out : TxOut}
    (consistent : InputConsistent view readTxIndex nTime txin coins txPrev out)
    (money : MoneyRange out.nValue) :
    satSecondLoop params view true readTxIndex nTime (txin :: rest) acc =
      satSecondLoop params view true readTxIndex nTime rest
        (acc + BitVec.ofInt 256 (inputCoinAge params view nTime txin)) := by
  have notBefore : ¬nTime < coins.nTime := UInt32.not_lt.mpr consistent.notLater
  have sameHash : ¬txPrev.hash ≠ txin.prevout.hash := not_not.mpr consistent.sameHash
  simp only [satSecondLoop, consistent.inView, if_neg notBefore, Bool.not_true,
    Bool.false_eq_true, if_false, consistent.indexed, if_neg sameHash, consistent.sameTime,
    inputCoinAge, consistent.output, consistent.sameOutput]
  by_cases young : (coins.nTime.toNat : Int) + params.nStakeMinAge > nTime.toNat
  · have notAged : ¬(coins.nTime.toNat : Int) + params.nStakeMinAge ≤ nTime.toNat := by
      omega
    simp [young, notAged]
  · have aged : (coins.nTime.toNat : Int) + params.nStakeMinAge ≤ nTime.toNat := by omega
    have later := UInt32.le_iff_toNat_le.mp consistent.notLater
    have dt : ((nTime - coins.nTime).toNat : Int) = nTime.toNat - coins.nTime.toNat := by
      rw [UInt32.toNat_sub_of_le _ _ consistent.notLater]
      omega
    have value : 0 ≤ out.nValue ∧ out.nValue < 2 ^ 64 :=
      ⟨money.1, lt_of_le_of_lt money.2 (by decide)⟩
    have time : 0 ≤ ((nTime.toNat : Int) - coins.nTime.toNat) ∧
        (nTime.toNat : Int) - coins.nTime.toNat < 2 ^ 32 := by
      have := nTime.toNat_lt
      omega
    have notNegative : ¬(nTime.toNat : Int) - coins.nTime.toNat < 0 := by omega
    simp only [young, if_false, dt, notNegative, aged, if_true, mulWord_ofInt64 value time]

/-- Over consistent inputs of values in `MoneyRange`, the loop adds up their coin ages
modulo `2^256`. -/
theorem satSecondLoop_eq (inputs : List TxIn) (acc : ArithUint256)
    (consistent : ∀ txin ∈ inputs, ∃ coins txPrev out,
      InputConsistent view readTxIndex nTime txin coins txPrev out ∧ MoneyRange out.nValue) :
    satSecondLoop params view true readTxIndex nTime inputs acc =
      some (acc + BitVec.ofInt 256 (inputs.map (inputCoinAge params view nTime)).sum) := by
  induction inputs generalizing acc with
  | nil => simp [satSecondLoop]
  | cons txin rest ih =>
    obtain ⟨coins, txPrev, out, first, money⟩ := consistent txin (by simp)
    rw [satSecondLoop_cons first money, ih _ (fun txin mem => consistent txin (by simp [mem]))]
    simp [BitVec.ofInt_add, BitVec.add_assoc]

/-- A consistent input's coin age lies between zero and its value times `2^32 - 1`. -/
theorem inputCoinAge_mem {txin : TxIn} {coins : Coins} {txPrev : Transaction} {out : TxOut}
    (consistent : InputConsistent view readTxIndex nTime txin coins txPrev out)
    (money : MoneyRange out.nValue) :
    0 ≤ inputCoinAge params view nTime txin ∧
      inputCoinAge params view nTime txin ≤ (2 ^ 32 - 1) * inputValue view txin := by
  have later := UInt32.le_iff_toNat_le.mp consistent.notLater
  have := nTime.toNat_lt
  simp only [inputCoinAge, inputValue, consistent.inView, consistent.output]
  split
  · constructor
    · exact Int.mul_nonneg money.1 (by omega)
    · rw [Int.mul_comm]
      exact Int.mul_le_mul_of_nonneg_right (by omega) money.1
  · exact ⟨le_rfl, Int.mul_nonneg (by decide) money.1⟩

/-- Summed over consistent inputs, the coin age is at most the total value times
`2^32 - 1`. -/
theorem sum_inputCoinAge_mem (inputs : List TxIn)
    (consistent : ∀ txin ∈ inputs, ∃ coins txPrev out,
      InputConsistent view readTxIndex nTime txin coins txPrev out ∧ MoneyRange out.nValue) :
    0 ≤ (inputs.map (inputCoinAge params view nTime)).sum ∧
      (inputs.map (inputCoinAge params view nTime)).sum ≤
        (2 ^ 32 - 1) * (inputs.map (inputValue view)).sum := by
  induction inputs with
  | nil => simp
  | cons txin rest ih =>
    obtain ⟨coins, txPrev, out, first, money⟩ := consistent txin (by simp)
    have head : 0 ≤ inputCoinAge params view nTime txin ∧
        inputCoinAge params view nTime txin ≤ (2 ^ 32 - 1) * inputValue view txin :=
      inputCoinAge_mem first money
    have tail := ih (fun txin mem => consistent txin (by simp [mem]))
    simp only [List.map_cons, List.sum_cons]
    omega

end Loop

/-! ### The reward -/

/-- The steps after the loop on a coin age below `2^89`: nothing wraps, `GetLow64` keeps
the whole quotient, and the rounded reward fits a `CAmount`. -/
theorem toInt64_reward {s : Nat} (bound : s < 2 ^ 89) :
    toInt64 (getLow64 (mulWord (BitVec.ofNat 256 s / BitVec.ofNat 256 (365 * 24 * 3600)) 10 /
        BitVec.ofNat 256 100) / TX_DP_AMOUNT.toNat * TX_DP_AMOUNT.toNat % 2 ^ 64) =
      ((s / (365 * 24 * 3600) * 10 / 100 / 10000 * 10000 : Nat) : Int) := by
  have word : s < 2 ^ 256 := lt_trans bound (by decide)
  have yearly : s / (365 * 24 * 3600) * 10 < 2 ^ 256 := by omega
  have low : s / (365 * 24 * 3600) * 10 / 100 < 2 ^ 64 := by omega
  have roundedWord : s / (365 * 24 * 3600) * 10 / 100 / 10000 * 10000 < 2 ^ 64 := by omega
  have rounded : s / (365 * 24 * 3600) * 10 / 100 / 10000 * 10000 < 2 ^ 63 := by omega
  simp only [getLow64, BitVec.toNat_udiv, toNat_mulWord, BitVec.toNat_ofNat,
    Nat.mod_eq_of_lt word, TX_DP_AMOUNT]
  have ten : (10 : UInt32).toNat = 10 := rfl
  have unit : (10000 : Int).toNat = 10000 := rfl
  have year : (365 * 24 * 3600 : Nat) % 2 ^ 256 = 365 * 24 * 3600 :=
    Nat.mod_eq_of_lt (by decide)
  have hundred : (100 : Nat) % 2 ^ 256 = 100 := Nat.mod_eq_of_lt (by decide)
  rw [ten, unit, year, hundred, Nat.mod_eq_of_lt yearly, Nat.mod_eq_of_lt low,
    Nat.mod_eq_of_lt roundedWord, toInt64_of_lt rounded]

/-- A coinstake is not a coinbase: its first input spends a real outpoint. -/
theorem isCoinBase_eq_false_of_isCoinStake {tx : Transaction}
    (coinstake : tx.IsCoinStake = true) : tx.IsCoinBase = false := by
  unfold Transaction.IsCoinStake at coinstake
  unfold Transaction.IsCoinBase
  split at coinstake
  · rename_i input _ _ _ _ vin _
    rw [vin]
    split
    · simp_all
    · rfl
  · cases coinstake

/-- `GetMinFee` always lies in `MoneyRange`. -/
theorem getMinFee_moneyRange (nBytes : Nat) : MoneyRange (getMinFee nBytes) := by
  dsimp only [getMinFee]
  split
  · assumption
  · exact ⟨by decide, le_rfl⟩

/-- An `int64_t` holds the value. -/
def InInt64 (x : Int) : Prop := -2 ^ 63 ≤ x ∧ x < 2 ^ 63

/-- `GetMfc7POSReward` pays the coin-age rule on a coinstake whose inputs are consistent
with the view and each spend a value in `MoneyRange`, with a total in `MoneyRange`: the
coin age stays below `2^89`, nothing wraps or truncates on the way, the reward fits a
`CAmount`, and the bound of `CheckTxInputs` does not overflow. -/
theorem getMfc7POSReward_eq {params : ConsensusParams} {view : TxHash → Option Coins}
    {readTxIndex : TxHash → TxIndexRead} {tx : Transaction} (coinstake : tx.IsCoinStake = true)
    (consistent : ∀ txin ∈ tx.vin, ∃ coins txPrev out,
      InputConsistent view readTxIndex tx.nTime txin coins txPrev out ∧ MoneyRange out.nValue)
    (total : MoneyRange (tx.vin.map (inputValue view)).sum) :
    ∃ nReward, getMfc7POSReward params view true readTxIndex tx = some nReward ∧
      nReward = stakeReward (coinAge params view tx) ∧ 0 ≤ nReward ∧ nReward < 2 ^ 63 ∧
      ∀ nBytes, InInt64 (nReward - getMinFee nBytes) ∧
        InInt64 (coinstakeLimit nReward nBytes) := by
  obtain ⟨nonneg, le⟩ : 0 ≤ coinAge params view tx ∧
      coinAge params view tx ≤ (2 ^ 32 - 1) * (tx.vin.map (inputValue view)).sum :=
    sum_inputCoinAge_mem tx.vin consistent
  have money := total.2
  simp only [MAX_MONEY, COIN] at money
  have bound : (coinAge params view tx).toNat < 2 ^ 89 := by omega
  -- the loop's sum is the coin age, below the word, so the accumulator holds it exactly
  have sat : BitVec.ofInt 256 (coinAge params view tx) =
      BitVec.ofNat 256 (coinAge params view tx).toNat := by
    rw [← BitVec.ofInt_natCast, Int.toNat_of_nonneg nonneg]
  have value : (((coinAge params view tx).toNat / (365 * 24 * 3600) * 10 / 100 / 10000 * 10000 :
      Nat) : Int) = stakeReward (coinAge params view tx) := by
    unfold stakeReward TX_DP_AMOUNT
    omega
  have run : getMfc7POSReward params view true readTxIndex tx =
      some (stakeReward (coinAge params view tx)) := by
    have notCoinBase : ¬tx.IsCoinBase = true := by
      simp [isCoinBase_eq_false_of_isCoinStake coinstake]
    rw [← value, ← toInt64_reward bound, ← sat, getMfc7POSReward, if_neg notCoinBase,
      satSecondLoop_eq tx.vin 0 consistent]
    simp [coinAge]
  refine ⟨_, run, rfl, by omega, by omega, fun nBytes => ?_⟩
  have fee := getMinFee_moneyRange nBytes
  simp only [MoneyRange, MAX_MONEY, COIN] at fee
  unfold InInt64 coinstakeLimit MIN_TX_FEE
  omega

/-- The reward of a coinstake spending 5 coins held for a year and 10 coins held for a day,
the second too young to count. -/
theorem getMfc7POSReward_eq_sample :
    ∃ (view : TxHash → Option Coins) (readTxIndex : TxHash → TxIndexRead) (tx : Transaction),
      tx.IsCoinStake = true ∧
      (∀ txin ∈ tx.vin, ∃ coins txPrev out,
        InputConsistent view readTxIndex tx.nTime txin coins txPrev out ∧
          MoneyRange out.nValue) ∧
      MoneyRange (tx.vin.map (inputValue view)).sum ∧
      ∃ nReward, getMfc7POSReward mainParams view true readTxIndex tx = some nReward ∧
        nReward = stakeReward (coinAge mainParams view tx) ∧ 0 ≤ nReward ∧
        nReward < 2 ^ 63 ∧ ∀ nBytes, InInt64 (nReward - getMinFee nBytes) ∧
          InInt64 (coinstakeLimit nReward nBytes) := by
  have consistent : ∀ txin ∈ [({ prevout := ⟨1, 0⟩ } : TxIn), { prevout := ⟨2, 0⟩ }],
      ∃ coins txPrev out, InputConsistent
        (fun h => if h = 1 then some ⟨false, [⟨500000000, []⟩], 1, 1, false, 1568464000⟩
          else if h = 2 then some ⟨false, [⟨1000000000, []⟩], 1, 1, false, 1599913600⟩
          else none)
        (fun h => if h = 1 then .found ⟨1, 1, 1568464000, [], [⟨500000000, []⟩], 0⟩
          else if h = 2 then .found ⟨2, 1, 1599913600, [], [⟨1000000000, []⟩], 0⟩
          else .missing)
        1600000000 txin coins txPrev out ∧ MoneyRange out.nValue := by
    intro txin mem
    simp only [List.mem_cons, List.not_mem_nil, or_false] at mem
    rcases mem with rfl | rfl
    · exact ⟨_, _, _, ⟨rfl, rfl, by decide, rfl, rfl, rfl, rfl⟩, by decide⟩
    · exact ⟨_, _, _, ⟨rfl, rfl, by decide, rfl, rfl, rfl, rfl⟩, by decide⟩
  exact ⟨_, _, ⟨100, 1, 1600000000, [{ prevout := ⟨1, 0⟩ }, { prevout := ⟨2, 0⟩ }],
      [⟨0, []⟩, ⟨1500000000, []⟩], 0⟩, by decide, consistent, by decide,
    getMfc7POSReward_eq (by decide) consistent (by decide)⟩

/-- The per-input `MoneyRange` hypothesis of `getMfc7POSReward_eq` cannot be dropped for
the total's alone: with inputs consistent with the view and a total in `MoneyRange`, one of
which spends `-1`, `arith_uint256(-1)` is `2^64 - 1` and the reward comes to about
`1.8 * 10^18` where the coin-age rule gives `99990000`. `CheckTxInputs` refuses such an
input before it asks for the reward, so no block reaches this case. -/
theorem getMfc7POSReward_negativeInput :
    ∃ (view : TxHash → Option Coins) (readTxIndex : TxHash → TxIndexRead) (tx : Transaction),
      tx.IsCoinStake = true ∧
      (∀ txin ∈ tx.vin, ∃ coins txPrev out,
        InputConsistent view readTxIndex tx.nTime txin coins txPrev out) ∧
      MoneyRange (tx.vin.map (inputValue view)).sum ∧
      getMfc7POSReward mainParams view true readTxIndex tx ≠
        some (stakeReward (coinAge mainParams view tx)) := by
  refine ⟨fun h => if h = 1 then some ⟨false, [⟨-1, []⟩], 1, 1, false, 1568464000⟩
      else if h = 2 then some ⟨false, [⟨1000000000, []⟩], 1, 1, false, 1568464000⟩ else none,
    fun h => if h = 1 then .found ⟨1, 1, 1568464000, [], [⟨-1, []⟩], 0⟩
      else if h = 2 then .found ⟨2, 1, 1568464000, [], [⟨1000000000, []⟩], 0⟩ else .missing,
    ⟨100, 1, 1600000000, [{ prevout := ⟨1, 0⟩ }, { prevout := ⟨2, 0⟩ }],
      [⟨0, []⟩, ⟨1000000000, []⟩], 0⟩, by decide, ?_, by decide, by decide⟩
  intro txin mem
  simp only [List.mem_cons, List.not_mem_nil, or_false] at mem
  rcases mem with rfl | rfl
  · exact ⟨_, _, _, ⟨rfl, rfl, by decide, rfl, rfl, rfl, rfl⟩⟩
  · exact ⟨_, _, _, ⟨rfl, rfl, by decide, rfl, rfl, rfl, rfl⟩⟩

end MFCoin.Pow
