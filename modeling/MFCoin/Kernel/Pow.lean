/-
Module: MFCoin.Kernel.Pow
Purpose: Difficulty retargeting and the proof-of-work range check (src/src/pow.cpp): the
  consensus parameters they read (src/src/chainparams.cpp), `GetLastBlockIndex`,
  `GetNextTargetRequired` with its `CBigNum` arithmetic, and `CheckProofOfWork`. The
  retarget clamps its result from above only, so a block spacing that drives the product
  to zero or below yields a compact value whose target is zero or negative.
Trusted boundary: none
Main exports: ConsensusParams, mainParams, BlockIndex, getLastBlockIndex, nextTarget,
  getNextTargetRequired, targetInRange, checkProofOfWork
-/
import MFCoin.Primitives.ArithUint256

namespace MFCoin.Pow

open MFCoin.Arith

/-! ### Parameters and the chain -/

/-- The fields of `Consensus::Params` that retargeting and the stake kernel read. -/
structure ConsensusParams where
  powLimit : ArithUint256
  bnInitialHashTarget : ArithUint256
  nTargetTimespan : Int
  nStakeTargetSpacing : Int
  nTargetSpacingMax : Int
  nStakeMinAge : Int
  nStakeMaxAge : Int

/-- `CMainParams`. -/
def mainParams : ConsensusParams where
  powLimit := BitVec.ofNat 256 (2 ^ 252 - 1)
  bnInitialHashTarget := BitVec.ofNat 256 (2 ^ 252 - 1)
  nTargetTimespan := 24 * 60 * 60
  nStakeTargetSpacing := 2 * 60
  nTargetSpacingMax := 12 * (2 * 60)
  nStakeMinAge := 60 * 60 * 24 * 14
  nStakeMaxAge := 60 * 60 * 24 * 90

/-- The part of `CBlockIndex` the retargeting reads. -/
structure BlockIndex where
  nHeight : Int
  nTime : UInt32
  nBits : UInt32
  IsProofOfStake : Bool
deriving DecidableEq, Repr

/-- `CBlockIndex::GetBlockTime`: the header time widened to `int64_t`. -/
def BlockIndex.getBlockTime (index : BlockIndex) : Int := index.nTime.toNat

/-- The range check of `CheckProofOfWork`: no sign, no overflow, not zero, and not above
`powLimit`. -/
def targetInRange (params : ConsensusParams) (nBits : UInt32) : Bool :=
  let target := setCompact nBits
  !(target.fNegative || target.value == 0 || target.fOverflow ||
    decide (target.value > params.powLimit))

/-- `CheckProofOfWork`. -/
def checkProofOfWork (hash : ArithUint256) (nBits : UInt32) (params : ConsensusParams) :
    Bool :=
  targetInRange params nBits && !decide (hash > (setCompact nBits).value)

end MFCoin.Pow
