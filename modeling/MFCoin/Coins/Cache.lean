/-
Module: MFCoin.Coins.Cache
Purpose: A stack of `CCoinsViewCache` layers over the coins database (src/src/coins.cpp,
  txdb.cpp): `FetchCoins` and the reads built on it, `ModifyCoins` and `ModifyNewCoins`
  with the `CCoinsModifier` destructor, `BatchWrite` into a cache and into the database,
  `Flush`, `Uncache`, and creating a cache, whose constructor adds the randpay entry.
Trusted boundary: the modification a caller makes through a `CCoinsModifier` is a
  function passed to the operation.
Main exports: viewOf, fetchCoins, modifiedEntry, modifyCoins, modifyNewCoins, batchWrite, dbBatchWrite,
  flushLayer, uncacheLayer, newCache, CoinsStack, CoinsOp, CoinsStack.apply,
  CoinsStack.run
-/
import MFCoin.Coins.Coins
import MFCoin.Lib.ExceptRun

namespace MFCoin.CoinsView

/-- The `std::logic_error`s the cache code throws. -/
inductive CoinsError where
  /-- `ModifyNewCoins should not find pre-existing coins on a non-coinbase unless they
  are pruned!` -/
  | preexistingCoins
  /-- `FRESH flag misapplied to cache entry for base transaction with spendable
  outputs` -/
  | freshMisapplied
deriving DecidableEq, Repr

/-- The coins database, `CCoinsViewDB`: pruned coins are never stored. -/
abbrev CoinsDB := TxHash → Option Coins

/-- What a stack of caches shows for a transaction: the first cache that has an entry,
else the database. -/
def viewOf (db : CoinsDB) : List CoinsMap → TxHash → Option Coins
  | [], txid => db txid
  | layer :: rest, txid =>
    match layer.lookup txid with
    | some entry => some entry.coins
    | none => viewOf db rest txid

/-- `CCoinsViewCache::FetchCoins` on the top of a stack: a miss asks the layer below
(`base->GetCoins`, itself a `FetchCoins`) and caches what it finds, `FRESH` when it is
pruned. Returns the coins found and the stack with the new entries. -/
def fetchCoins (db : CoinsDB) : List CoinsMap → TxHash → Option Coins × List CoinsMap
  | [], txid => (db txid, [])
  | layer :: rest, txid =>
    match layer.lookup txid with
    | some entry => (some entry.coins, layer :: rest)
    | none =>
      match fetchCoins db rest txid with
      | (none, rest') => (none, layer :: rest')
      | (some coins, rest') =>
        (some coins, layer.insert txid ⟨coins, false, coins.IsPruned⟩ :: rest')

/-- `~CCoinsModifier`: `Cleanup`, then an entry that is `FRESH` and pruned is erased. -/
def releaseModifier (layer : CoinsMap) (txid : TxHash) (entry : CacheEntry) : CoinsMap :=
  let entry := { entry with coins := entry.coins.cleanup }
  if entry.fresh ∧ entry.coins.IsPruned then layer.erase txid else layer.insert txid entry

/-- The entry `CCoinsViewCache::ModifyCoins(txid)` hands to the modifier, before it sets
`DIRTY`, and the layers below after the read. A miss reads the layers below; coins found
nowhere start as `CCoins().Clear()`, marked `FRESH`, and so do pruned coins. -/
def modifiedEntry (db : CoinsDB) (layer : CoinsMap) (rest : List CoinsMap) (txid : TxHash) :
    CacheEntry × List CoinsMap :=
  match layer.lookup txid with
  | some entry => (entry, rest)
  | none =>
    match fetchCoins db rest txid with
    | (none, rest') => (⟨Coins.empty, false, true⟩, rest')
    | (some coins, rest') => (⟨coins, false, coins.IsPruned⟩, rest')

/-- `CCoinsViewCache::ModifyCoins(txid)` on the top cache, the caller's `change` through
the modifier, and its destructor. -/
def modifyCoins (db : CoinsDB) (layers : List CoinsMap) (txid : TxHash)
    (change : Coins → Coins) : List CoinsMap :=
  match layers with
  | [] => []
  | layer :: rest =>
    let (entry, rest') := modifiedEntry db layer rest txid
    releaseModifier layer txid { entry with coins := change entry.coins, dirty := true } :: rest'

/-- `CCoinsViewCache::ModifyNewCoins(txid, coinbase)` on the top cache, the caller's
`change`, and the modifier's destructor. It never reads the layers below: it relies on
BIP 30 for the claim that the coins are new, and marks them `FRESH` unless the cache
already holds them `DIRTY`. -/
def modifyNewCoins (layers : List CoinsMap) (txid : TxHash) (coinbase : Bool)
    (change : Coins → Coins) : Except CoinsError (List CoinsMap) :=
  match layers with
  | [] => .ok []
  | layer :: rest =>
    let entry := (layer.lookup txid).getD ⟨Coins.empty, false, false⟩
    if !coinbase && !entry.coins.IsPruned then .error .preexistingCoins
    else
      let fresh := entry.fresh || (!coinbase && !entry.dirty)
      .ok (releaseModifier layer txid ⟨change entry.coins.clear, true, fresh⟩ :: rest)

/-- One entry of `CCoinsViewCache::BatchWrite`: a `DIRTY` child entry is added, erased
against a `FRESH` parent entry, or copied over the parent's. -/
def batchWriteEntry (parent : CoinsMap) (txid : TxHash) (child : CacheEntry) :
    Except CoinsError CoinsMap :=
  if !child.dirty then .ok parent
  else
    match parent.lookup txid with
    | none =>
      if child.fresh ∧ child.coins.IsPruned then .ok parent
      else .ok (parent.insert txid ⟨child.coins, true, child.fresh⟩)
    | some ours =>
      if child.fresh ∧ !ours.coins.IsPruned then .error .freshMisapplied
      else if ours.fresh ∧ child.coins.IsPruned then .ok (parent.erase txid)
      else .ok (parent.insert txid { ours with coins := child.coins, dirty := true })

/-- `CCoinsViewCache::BatchWrite`: the child's entries one after another. -/
def batchWrite (child parent : CoinsMap) : Except CoinsError CoinsMap :=
  child.entries.foldlM (fun parent entry => batchWriteEntry parent entry.1 entry.2) parent

/-- `CCoinsViewDB::BatchWrite`: a `DIRTY` entry is erased when pruned and written
otherwise. -/
def dbBatchWrite (child : CoinsMap) (db : CoinsDB) : CoinsDB :=
  child.entries.foldl (fun db entry =>
    if entry.2.dirty then
      Function.update db entry.1 (if entry.2.coins.IsPruned then none else some entry.2.coins)
    else db) db

/-- `Flush` of the cache at depth `depth`: `BatchWrite` into the layer below, or into the
database for the lowest cache, then `cacheCoins.clear()`. -/
def flushLayer (db : CoinsDB) : List CoinsMap → Nat → Except CoinsError (List CoinsMap × CoinsDB)
  | [], _ => .ok ([], db)
  | [layer], 0 => .ok ([∅], dbBatchWrite layer db)
  | layer :: parent :: rest, 0 => do
    let parent ← batchWrite layer parent
    return (∅ :: parent :: rest, db)
  | layer :: rest, depth + 1 => do
    let (rest, db) ← flushLayer db rest depth
    return (layer :: rest, db)

/-- `CCoinsViewCache::Uncache(txid)` of the cache at depth `depth`: only an entry with no
flags is dropped. -/
def uncacheLayer (txid : TxHash) : List CoinsMap → Nat → List CoinsMap
  | [], _ => []
  | layer :: rest, 0 =>
    match layer.lookup txid with
    | some entry => if !entry.dirty && !entry.fresh then layer.erase txid :: rest else layer :: rest
    | none => layer :: rest
  | layer :: rest, depth + 1 => layer :: uncacheLayer txid rest depth

/-- The cache `CCoinsViewCache`'s constructor builds: the randpay entry, `DIRTY`. -/
def newCache : CoinsMap := (∅ : CoinsMap).insert randpaytx ⟨randpayCoins, true, false⟩

/-! ### The stack -/

/-- The coins database and the caches over it, top first. -/
structure CoinsStack where
  db : CoinsDB
  layers : List CoinsMap

/-- What is done to a stack: reads on the top cache (`AccessCoins`, `GetCoins`,
`HaveCoins` all run `FetchCoins`), modifications on the top cache, `Flush` and `Uncache`
of any cache, a new cache on top, and the top cache flushed and dropped. -/
inductive CoinsOp where
  | access (txid : TxHash)
  | modify (txid : TxHash) (change : Coins → Coins)
  | modifyNew (txid : TxHash) (coinbase : Bool) (change : Coins → Coins)
  | flush (depth : Nat)
  | uncache (depth : Nat) (txid : TxHash)
  | push
  | pop

/-- One operation. -/
def CoinsStack.apply (stack : CoinsStack) : CoinsOp → Except CoinsError CoinsStack
  | .access txid => .ok { stack with layers := (fetchCoins stack.db stack.layers txid).2 }
  | .modify txid change => .ok { stack with layers := modifyCoins stack.db stack.layers txid change }
  | .modifyNew txid coinbase change => do
    let layers ← modifyNewCoins stack.layers txid coinbase change
    return { stack with layers := layers }
  | .flush depth => do
    let (layers, db) ← flushLayer stack.db stack.layers depth
    return ⟨db, layers⟩
  | .uncache depth txid => .ok { stack with layers := uncacheLayer txid stack.layers depth }
  | .push => .ok { stack with layers := newCache :: stack.layers }
  | .pop => do
    let (layers, db) ← flushLayer stack.db stack.layers 0
    return ⟨db, layers.tail⟩

/-- A sequence of operations. -/
def CoinsStack.run (stack : CoinsStack) : List CoinsOp → Except CoinsError CoinsStack
  | [] => .ok stack
  | op :: rest => do
    let stack ← stack.apply op
    stack.run rest

/-- `AccessCoins` on the top cache. -/
def CoinsStack.access (stack : CoinsStack) (txid : TxHash) : Option Coins :=
  (fetchCoins stack.db stack.layers txid).1

/-- The database with `pcoinsTip`, a fresh cache, on it. -/
def CoinsStack.initial (db : CoinsDB) : CoinsStack := ⟨db, [newCache]⟩

end MFCoin.CoinsView
