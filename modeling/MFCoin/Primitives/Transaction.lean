/-
Module: MFCoin.Primitives.Transaction
Purpose: Transactions as the name hooks, the coins view and the script checks read them
  (src/src/primitives/transaction.h): outpoints, inputs, outputs, and the ppcoin
  timestamp. A transaction's hash is carried as a field: it is `GetHash()`, the
  double-SHA256 of the serialization without witness, and two transactions of one run
  that differ in content have different hashes.
Trusted boundary: none
Main exports: Script, TxHash, OutPoint, TxIn, TxOut, Transaction, MAX_MONEY, MoneyRange
-/
import Mathlib

namespace MFCoin

/-- A serialized script: `CScript`, a byte vector. -/
abbrev Script := List UInt8

/-- A transaction id (`uint256`), kept as its numeric value. -/
abbrev TxHash := Nat

/-- `COutPoint`: the spent transaction's hash and the output index. -/
structure OutPoint where
  hash : TxHash
  n : UInt32
deriving DecidableEq, Repr

/-- `CTxIn`, with the witness stack of `CTxInWitness` attached to the input. -/
structure TxIn where
  prevout : OutPoint
  scriptSig : Script := []
  nSequence : UInt32 := 0xffffffff
  witness : List (List UInt8) := []
deriving DecidableEq, Repr

/-- `CTxOut`. A null output (`SetNull`) has `nValue = -1` and an empty script. -/
structure TxOut where
  nValue : Int
  scriptPubKey : Script
deriving DecidableEq, Repr

/-- `CTxOut::SetNull` / `IsNull`. -/
def TxOut.null : TxOut := ⟨-1, []⟩

def TxOut.IsNull (out : TxOut) : Prop := out.nValue = -1

instance (out : TxOut) : Decidable out.IsNull := inferInstanceAs (Decidable (_ = _))

/-- `CTransaction` with its ppcoin `nTime`. -/
structure Transaction where
  hash : TxHash
  nVersion : Int
  nTime : UInt32 := 0
  vin : List TxIn
  vout : List TxOut
  nLockTime : UInt32 := 0
deriving DecidableEq, Repr

/-- `COIN`: one coin in its smallest units. -/
def COIN : Int := 100000000

/-- `MAX_MONEY`: no amount is larger. -/
def MAX_MONEY : Int := 1000000000 * COIN

/-- `MoneyRange`. -/
def MoneyRange (nValue : Int) : Prop := 0 ≤ nValue ∧ nValue ≤ MAX_MONEY

instance (nValue : Int) : Decidable (MoneyRange nValue) := inferInstanceAs (Decidable (_ ∧ _))

/-- `COutPoint::IsNull`: the zero hash and index `(uint32_t) -1`. -/
def OutPoint.IsNull (prevout : OutPoint) : Bool :=
  prevout.hash == 0 && prevout.n == 0xffffffff

/-- `CTxOut::IsEmpty`: value zero and an empty script. -/
def TxOut.IsEmpty (out : TxOut) : Bool := out.nValue == 0 && out.scriptPubKey.isEmpty

/-- `CTransaction::IsCoinBase`: one input spending the null outpoint, and an output. -/
def Transaction.IsCoinBase (tx : Transaction) : Bool :=
  match tx.vin with
  | [input] => input.prevout.IsNull && 1 ≤ tx.vout.length
  | _ => false

/-- `CTransaction::IsCoinStake` (ppcoin): a real first input, and an empty first output
followed by at least one more. -/
def Transaction.IsCoinStake (tx : Transaction) : Bool :=
  match tx.vin, tx.vout with
  | input :: _, first :: _ :: _ => !input.prevout.IsNull && first.IsEmpty
  | _, _ => false

end MFCoin
