/-
Module: MFCoin.Coins.Coins
Purpose: The unspent outputs of one transaction as the coins view stores them
  (src/src/coins.h, coins.cpp): `CCoins` with its ppcoin fields, `FromTx`, `Clear`,
  `Cleanup`, `Spend`, `IsPruned`, `operator==`, the cache entry with its `DIRTY` and
  `FRESH` flags, and the randpay coins every new cache starts with.
Trusted boundary: none
Main exports: Coins, Coins.IsPruned, Coins.live, Coins.Same, CacheEntry, CoinsMap,
  randpaytx, randpayCoins
-/
import MFCoin.Script.Core
import Mathlib.Data.List.AList

namespace MFCoin.CoinsView

open MFCoin.Script

/-!
A `CCoins` is compared with `operator==`, under which all pruned coins are equal, and the
views report pruned coins and absent coins alike to their users. `Coins.live` is that
reading: pruned coins become `none`. The cache proofs are stated through it.
-/

/-- `CCoins`. -/
structure Coins where
  fCoinBase : Bool
  vout : List TxOut
  nHeight : Int
  nVersion : Int
  fCoinStake : Bool
  nTime : UInt32
deriving DecidableEq, Repr

/-- `CCoins()`. -/
def Coins.empty : Coins := ⟨false, [], 0, 0, false, 0⟩

/-- `CCoins::IsPruned`: every output spent. -/
def Coins.IsPruned (coins : Coins) : Bool := coins.vout.all fun out => decide out.IsNull

/-- `CCoins::IsAvailable(nPos)`. -/
def Coins.IsAvailable (coins : Coins) (nPos : Nat) : Bool :=
  match coins.vout[nPos]? with
  | some out => !decide out.IsNull
  | none => false

/-- `CCoins::Clear`: it does not reset the ppcoin fields `fCoinStake` and `nTime`. -/
def Coins.clear (coins : Coins) : Coins :=
  { coins with fCoinBase := false, vout := [], nHeight := 0, nVersion := 0 }

/-- The loop of `CCoins::Cleanup`: spent outputs at the end are dropped. -/
def dropSpentTail (vout : List TxOut) : List TxOut :=
  (vout.reverse.dropWhile fun out => decide out.IsNull).reverse

/-- `CCoins::Cleanup`. -/
def Coins.cleanup (coins : Coins) : Coins := { coins with vout := dropSpentTail coins.vout }

/-- `MAX_SCRIPT_SIZE`. -/
def MAX_SCRIPT_SIZE : Nat := 22000

/-- `OP_RETURN`. -/
@[match_pattern] def OP_RETURN : UInt8 := 0x6a

/-- `CScript::IsUnspendable`. -/
def isUnspendable (script : Script) : Bool :=
  script.head? == some OP_RETURN || script.length > MAX_SCRIPT_SIZE

/-- `CCoins::ClearUnspendable`: unspendable outputs are nulled, then `Cleanup`. -/
def Coins.clearUnspendable (coins : Coins) : Coins :=
  Coins.cleanup { coins with
    vout := coins.vout.map fun out => if isUnspendable out.scriptPubKey then TxOut.null else out }

/-- `CCoins::FromTx(tx, nHeight)`. -/
def Coins.fromTx (tx : Transaction) (nHeight : Int) : Coins :=
  Coins.clearUnspendable
    { fCoinBase := tx.IsCoinBase, vout := tx.vout, nHeight := nHeight, nVersion := tx.nVersion,
      fCoinStake := tx.IsCoinStake, nTime := tx.nTime }

/-- `CCoins::Spend(nPos)`: `none` when the output is not available. -/
def Coins.spend (coins : Coins) (nPos : Nat) : Option Coins :=
  if coins.IsAvailable nPos then
    some (Coins.cleanup { coins with vout := coins.vout.set nPos TxOut.null })
  else none

/-- What a view reports for a transaction: pruned coins read as absent. -/
def Coins.live (found : Option Coins) : Option Coins :=
  found.filter fun coins => !coins.IsPruned

/-- `operator==` on `CCoins`: pruned coins are all equal. -/
def Coins.Same (a b : Coins) : Prop := Coins.live (some a) = Coins.live (some b)

@[simp] theorem Coins.live_none : Coins.live none = none := rfl

theorem Coins.live_some (coins : Coins) :
    Coins.live (some coins) = if coins.IsPruned then none else some coins := by
  cases pruned : coins.IsPruned <;> simp [Coins.live, Option.filter, pruned]

theorem Coins.live_eq_none_of_pruned {coins : Coins} (pruned : coins.IsPruned = true) :
    Coins.live (some coins) = none := by
  rw [Coins.live_some, if_pos pruned]

theorem Coins.isPruned_of_live_eq_none {coins : Coins} (dead : Coins.live (some coins) = none) :
    coins.IsPruned = true := by
  rw [Coins.live_some] at dead
  split_ifs at dead with pruned
  exact pruned

theorem Coins.empty_isPruned : Coins.empty.IsPruned = true := rfl

theorem Coins.clear_isPruned (coins : Coins) : coins.clear.IsPruned = true := rfl

/-- Dropping a prefix of elements that satisfy `p` does not change whether all do. -/
theorem all_dropWhile_self {α : Type} (p : α → Bool) :
    ∀ l : List α, (l.dropWhile p).all p = l.all p
  | [] => rfl
  | a :: rest => by
    cases satisfied : p a with
    | true => simp [satisfied, all_dropWhile_self p rest]
    | false => simp [satisfied]

/-- `Cleanup` drops only spent outputs, so a pruned record stays pruned and a live one
stays live. -/
theorem Coins.cleanup_isPruned (coins : Coins) : coins.cleanup.IsPruned = coins.IsPruned := by
  simp only [Coins.IsPruned, Coins.cleanup, dropSpentTail, List.all_reverse]
  rw [all_dropWhile_self, List.all_reverse]

/-- `Cleanup` keeps `operator==`. -/
theorem Coins.Same.cleanup {a b : Coins} (same : a.Same b) : a.cleanup.Same b.cleanup := by
  unfold Coins.Same at same ⊢
  rw [Coins.live_some, Coins.live_some] at same ⊢
  rw [Coins.cleanup_isPruned, Coins.cleanup_isPruned]
  cases prunedA : a.IsPruned <;> cases prunedB : b.IsPruned <;>
    simp only [prunedA, prunedB, Bool.false_eq_true, if_false, if_true, reduceCtorEq,
      Option.some.injEq] at same ⊢
  rw [same]

/-! ### Cache entries -/

/-- `CCoinsCacheEntry`: the coins and the `DIRTY` and `FRESH` flags. -/
structure CacheEntry where
  coins : Coins
  dirty : Bool
  fresh : Bool
deriving DecidableEq, Repr

/-- `CCoinsMap`: the entries of one cache, by transaction id. -/
abbrev CoinsMap := AList fun _ : TxHash => CacheEntry

/-- `randpaytx`: the id made of 32 bytes `0xEC`. -/
def randpaytx : TxHash := (List.replicate 32 (0xEC : Nat)).foldl (fun acc b => acc * 256 + b) 0

/-- The randpay coins `CCoinsViewCache`'s constructor puts in every new cache: one output
of value zero, version 1. -/
def randpayCoins : Coins := ⟨false, [⟨0, []⟩], 0, 1, false, 0⟩

theorem randpayCoins_live : Coins.live (some randpayCoins) = some randpayCoins := rfl

end MFCoin.CoinsView
