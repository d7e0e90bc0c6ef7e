/-
Module: MFCoin.Names.PoolConflicts
Purpose: The conflict scan of `AcceptToMemoryPoolWorker` (src/src/validation.cpp): each input
  looked up in `mapNextTx`, a conflict that does not signal replacement rejecting the
  transaction with `txn-mempool-conflict`, the others gathered to be replaced. The randpay
  coins that every `CCoinsViewCache` holds (src/src/coins.cpp) may be spent by any number of
  transactions in a block, but neither this scan nor `removeConflicts` knows them: a second
  spender of the randpay outpoint is refused or replaces the first, and a block with one
  spender removes the other from the pool.
Trusted boundary: `mapNextTx` is read as the first pool entry that spends the outpoint,
  which it is while every outpoint has at most one spender in the pool.
Main exports: mapNextTxFind, findConflicts, findConflicts_spenders,
  findConflicts_withoutReplacement, randpaySpend_conflicts
-/
import MFCoin.Names.Pending
import MFCoin.Coins.Coins
import MFCoin.Lib.ExceptRun

namespace MFCoin.Names

open MFCoin.CoinsView (randpaytx)

/-- A transaction spends an outpoint when one of its inputs names it. -/
def Spends (tx : Transaction) (prevout : OutPoint) : Prop :=
  ∃ txin ∈ tx.vin, txin.prevout = prevout

/-- `pool.mapNextTx.find(prevout)`: the pool entry spending the outpoint. -/
def mapNextTxFind (mapTx : List PoolEntry) (prevout : OutPoint) : Option PoolEntry :=
  mapTx.find? fun entry => entry.tx.vin.any fun input => input.prevout == prevout

/-- Without replacement, or when every input has `nSequence >= maxint - 1`, a conflicting
pool entry cannot be replaced. -/
def replacementOptOut (fEnableReplacement : Bool) (ptxConflicting : Transaction) : Bool :=
  !fEnableReplacement || ptxConflicting.vin.all fun txin => !(txin.nSequence < 0xffffffff - 1)

/-- One input of the conflict scan. -/
def conflictStep (fEnableReplacement : Bool) (mapTx : List PoolEntry)
    (setConflicts : Finset TxHash) (txin : TxIn) : Except String (Finset TxHash) :=
  match mapNextTxFind mapTx txin.prevout with
  | none => pure setConflicts
  | some conflicting =>
    if conflicting.tx.hash ∈ setConflicts then pure setConflicts
    else if replacementOptOut fEnableReplacement conflicting.tx then throw "txn-mempool-conflict"
    else pure (insert conflicting.tx.hash setConflicts)

/-- The conflict scan of `AcceptToMemoryPoolWorker`: the hashes of the pool entries to be
replaced, or the rejection. -/
def findConflicts (fEnableReplacement : Bool) (mapTx : List PoolEntry) (tx : Transaction) :
    Except String (Finset TxHash) :=
  tx.vin.foldlM (conflictStep fEnableReplacement mapTx) ∅

theorem mapNextTxFind_spends {mapTx : List PoolEntry} {prevout : OutPoint} {entry : PoolEntry}
    (found : mapNextTxFind mapTx prevout = some entry) : entry ∈ mapTx ∧ Spends entry.tx prevout := by
  have spends := List.find?_some found
  simp only [List.any_eq_true, beq_iff_eq] at spends
  exact ⟨List.mem_of_find?_eq_some found, spends⟩

theorem mapNextTxFind_eq_none {mapTx : List PoolEntry} {prevout : OutPoint}
    (missing : mapNextTxFind mapTx prevout = none) : ∀ entry ∈ mapTx, ¬Spends entry.tx prevout := by
  intro entry mem spends
  have := List.find?_eq_none.mp missing entry mem
  simp only [List.any_eq_true, beq_iff_eq] at this
  exact this spends

/-- A pool entry the scan will replace spends an input of the transaction and signals
replacement. -/
def ReplaceableConflict (fEnableReplacement : Bool) (mapTx : List PoolEntry) (tx : Transaction)
    (hash : TxHash) : Prop :=
  ∃ entry ∈ mapTx, entry.tx.hash = hash ∧ (∃ txin ∈ tx.vin, Spends entry.tx txin.prevout) ∧
    replacementOptOut fEnableReplacement entry.tx = false

/-- What one step of the scan keeps: every gathered hash is a replaceable conflict; and what it
checks: without replacement, the input is spent by no pool entry. -/
theorem conflictStep_ok {fEnable : Bool} {mapTx : List PoolEntry} {tx : Transaction}
    {setConflicts setConflicts' : Finset TxHash} {txin : TxIn} (input : txin ∈ tx.vin)
    (gathered : ∀ hash ∈ setConflicts, ReplaceableConflict fEnable mapTx tx hash)
    (stepped : conflictStep fEnable mapTx setConflicts txin = .ok setConflicts') :
    (∀ hash ∈ setConflicts', ReplaceableConflict fEnable mapTx tx hash) ∧
      (fEnable = false → setConflicts' = setConflicts ∧ mapNextTxFind mapTx txin.prevout = none) := by
  unfold conflictStep at stepped
  split at stepped
  · -- no pool entry spends the input
    rename_i missing
    cases stepped
    exact ⟨gathered, fun _ => ⟨rfl, missing⟩⟩
  · rename_i conflicting found
    obtain ⟨mem, spends⟩ := mapNextTxFind_spends found
    split at stepped
    · -- the entry is already gathered: without replacement nothing ever is
      rename_i known
      cases stepped
      refine ⟨gathered, fun off => ?_⟩
      obtain ⟨entry, -, -, -, optIn⟩ := gathered _ known
      simp [replacementOptOut, off] at optIn
    · split at stepped
      · cases stepped
      · rename_i optIn
        cases stepped
        refine ⟨fun hash mem' => ?_, fun off => absurd optIn (by simp [replacementOptOut, off])⟩
        rcases Finset.mem_insert.mp mem' with rfl | old
        · exact ⟨conflicting, mem, rfl, ⟨txin, input, spends⟩, by simpa using optIn⟩
        · exact gathered hash old

/-- The pool entries the scan hands on to be replaced spend an input of the transaction and
signal replacement. -/
theorem findConflicts_spenders {fEnable : Bool} {mapTx : List PoolEntry} {tx : Transaction}
    {setConflicts : Finset TxHash} (scanned : findConflicts fEnable mapTx tx = .ok setConflicts) :
    ∀ hash ∈ setConflicts, ReplaceableConflict fEnable mapTx tx hash :=
  (List.foldlM_except_forall _ (fun s => ∀ hash ∈ s, ReplaceableConflict fEnable mapTx tx hash)
    (fun _ => True) tx.vin (fun _ _ _ input gathered stepped =>
      ⟨(conflictStep_ok input gathered stepped).1, trivial⟩) ∅ setConflicts
    (fun _ none => absurd none (Finset.notMem_empty _)) scanned).1

/-- With replacement off, a transaction that passes the scan spends no outpoint that a pool
entry spends, and nothing is to be replaced. -/
theorem findConflicts_withoutReplacement {mapTx : List PoolEntry} {tx : Transaction}
    {setConflicts : Finset TxHash} (scanned : findConflicts false mapTx tx = .ok setConflicts) :
    setConflicts = ∅ ∧ ∀ txin ∈ tx.vin, ∀ entry ∈ mapTx, ¬Spends entry.tx txin.prevout := by
  -- the gathered set stays empty, and each input finds no spender
  have scan := List.foldlM_except_forall _ (fun s => s = ∅ ∧
      ∀ hash ∈ s, ReplaceableConflict false mapTx tx hash)
    (fun txin => mapNextTxFind mapTx txin.prevout = none) tx.vin
    (fun _ _ _ input ⟨empty, gathered⟩ stepped => by
      obtain ⟨gathered', unchanged⟩ := conflictStep_ok input gathered stepped
      obtain ⟨same, missing⟩ := unchanged rfl
      exact ⟨⟨same.trans empty, gathered'⟩, missing⟩)
    ∅ setConflicts ⟨rfl, fun _ none => absurd none (Finset.notMem_empty _)⟩ scanned
  exact ⟨scan.1.1, fun txin input => mapNextTxFind_eq_none (scan.2 txin input)⟩

/-! ### Two spenders of the randpay coins -/

/-- A transaction spending the randpay outpoint and an outpoint of its own, every input with
the given `nSequence`. -/
def randpaySpender (hash : TxHash) (nSequence : UInt32) : Transaction :=
  { hash := hash, nVersion := 1,
    vin := [⟨⟨randpaytx, 0⟩, [], nSequence, []⟩, ⟨⟨hash + 100, 0⟩, [], nSequence, []⟩],
    vout := [⟨0, []⟩] }

/-- Transactions 1 and 2 share only the randpay input. With transaction 1 in the pool, the scan
refuses transaction 2 when 1 does not signal replacement, and hands 1 on to be replaced when it
does; with transaction 2 in the pool, a block holding transaction 1 removes 2. -/
theorem randpaySpend_conflicts :
    findConflicts true [⟨randpaySpender 1 0xffffffff, 0⟩] (randpaySpender 2 0xffffffff) =
        .error "txn-mempool-conflict" ∧
      findConflicts true [⟨randpaySpender 1 0, 0⟩] (randpaySpender 2 0) = .ok {1} ∧
      (PoolState.removeForBlock ⟨NameNode.genesis, [⟨randpaySpender 2 0xffffffff, 0⟩], ∅⟩
        [randpaySpender 1 0xffffffff]).exists 2 = false := by
  decide

end MFCoin.Names
