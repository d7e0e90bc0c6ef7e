/-
Module: MFCoin.Coins.Disconnect
Purpose: What `ConnectBlock` and `DisconnectBlock` do to the coins (src/src/validation.cpp):
  `HaveInputs` and `UpdateCoins` with the undo records they write, the first
  transaction's dropped; `ApplyTxInUndo`, and the loop of `DisconnectBlock` that checks
  and removes each transaction's outputs and puts its inputs back from the undo data read
  from its bytes, transactions and inputs last first, the randpay inputs skipped on both
  sides. The view is the map `AccessCoins` reads, changed through `ModifyCoins` and
  `ModifyNewCoins` as `CoinsOp.onMap` has them (MFCoin.Coins.Refinement).
  Disconnecting a block outside the fork region puts back, cleanly, every coins the block
  changed, when the coins it spends have a positive height below `2^30` and a
  non-negative version and are cleaned up, and what the block creates is as
  `CheckBlock` leaves it; a spent coins with a negative version comes back with another.
Trusted boundary: none beyond `Secp256k1` (MFCoin.Coins.Compressor)
Main exports: spendOutput, updateCoins, connectBlock, applyTxInUndo, disconnectTx,
  disconnectBlock, CoinsStorable, ViewStorable, BlockChecked,
  applyTxInUndo_spendOutput, disconnectTx_connectTx, disconnectTxs_forward
-/
import MFCoin.Coins.Refinement
import MFCoin.Coins.UndoData
import MFCoin.Lib.UndoLog
import Mathlib.Data.List.DropRight

namespace MFCoin.CoinsView

open MFCoin.Serialize ByteCodec

/-! ### The model -/

/-- `forkStartHeight`. -/
def forkStartHeight : Int := 0

/-- `forkHeightRange`. -/
def forkHeightRange : Int := 365

/-- `forkCBPerBlock`: in the fork region the first this many transactions of a block are
coinbases. -/
def forkCBPerBlock : Nat := 2000

/-- `isForkBlock`. -/
def isForkBlock (nHeight : Int) : Bool :=
  nHeight > forkStartHeight && nHeight ≤ forkStartHeight + forkHeightRange

/-- An `int` stored in an `unsigned int`. -/
def unsignedOf (n : Int) : UInt32 := (n % 2 ^ 32).toNat.toUInt32

/-- An `unsigned int` read as an `int`. -/
def signedOf (n : UInt32) : Int := if n.toNat < 2 ^ 31 then n.toNat else n.toNat - 2 ^ 32

/-- The inputs that have undo records: all but those spending the randpay coins. -/
def vinWithoutRandpay (tx : Transaction) : List TxIn :=
  tx.vin.filter fun txin => txin.prevout.hash != randpaytx

/-- One input of `UpdateCoins`: `ModifyCoins` on the spent transaction, the output spent,
and its undo record, with the coins' metadata when it was the last unspent one. `none`
where the source asserts. -/
def spendOutput (view : CoinsDB) (prevout : OutPoint) : Option (TxInUndo × CoinsDB) := do
  let coins := (view prevout.hash).getD Coins.empty
  let out ← coins.vout[prevout.n.toNat]?
  -- `Spend` fails exactly where the source asserts: past the end, or spent
  let spent ← coins.spend prevout.n.toNat
  let undo : TxInUndo :=
    if spent.vout.length = 0 then
      { txout := out, fCoinBase := spent.fCoinBase, nHeight := unsignedOf spent.nHeight,
        nVersion := spent.nVersion, fCoinStake := spent.fCoinStake, nTime := spent.nTime }
    else { txout := out }
  some (undo, (CoinsOp.modify prevout.hash fun _ => spent).onMap view)

/-- `UpdateCoins`: the inputs of a transaction other than a coinbase spent, the randpay
ones skipped, then `ModifyNewCoins` with `FromTx`. -/
def updateCoins (tx : Transaction) (view : CoinsDB) (nHeight : Int) :
    Option (TxUndo × CoinsDB) := do
  let (txundo, view) ←
    if tx.IsCoinBase then some ([], view)
    else UndoLog.forward (fun view txin => spendOutput view txin.prevout) (vinWithoutRandpay tx) view
  some (txundo, (CoinsOp.modifyNew tx.hash tx.IsCoinBase fun _ => Coins.fromTx tx nHeight).onMap view)

/-- `CCoinsViewCache::HaveInputs`. -/
def haveInputs (view : CoinsDB) (tx : Transaction) : Bool :=
  tx.IsCoinBase || tx.vin.all fun txin =>
    match view txin.prevout.hash with
    | some coins => coins.IsAvailable txin.prevout.n.toNat
    | none => false

/-- One transaction of the loop of `ConnectBlock`, as far as the coins go: one other than a
coinbase needs its inputs, then `UpdateCoins`. -/
def connectTx (nHeight : Int) (view : CoinsDB) (tx : Transaction) : Option (TxUndo × CoinsDB) :=
  if !tx.IsCoinBase && !haveInputs view tx then none else updateCoins tx view nHeight

/-- `ConnectBlock` on the coins, for a block other than the genesis block: its transactions
in turn; the first one's undo record goes to `undoDummy`, the others' to `vtxundo`. The
script, signature-operation, fee and proof-of-stake checks are not modelled. -/
def connectBlock (nHeight : Int) (view : CoinsDB) : List Transaction → Option (BlockUndo × CoinsDB)
  | [] => some ([], view)
  | tx :: rest => do
    let (_, view) ← connectTx nHeight view tx
    UndoLog.forward (connectTx nHeight) rest view

/-- `vout.resize(size)`: cut, or padded with `CTxOut()`, which is null. -/
def resizeVout (vout : List TxOut) (size : Nat) : List TxOut :=
  vout.take size ++ List.replicate (size - vout.length) TxOut.null

/-- What `ApplyTxInUndo` does to the coins of the spent transaction, and whether it found
nothing out of place. -/
def TxInUndo.restore (undo : TxInUndo) (nPos : UInt32) (coins : Coins) : Bool × Coins :=
  let (fClean, coins) :=
    if undo.nHeight ≠ 0 then
      -- the record has the metadata: the coins had no unspent output left
      (coins.IsPruned,
        { coins.clear with
          fCoinBase := undo.fCoinBase, nHeight := signedOf undo.nHeight, nVersion := undo.nVersion,
          fCoinStake := undo.fCoinStake, nTime := undo.nTime })
    else (!coins.IsPruned, coins)
  let fClean := fClean && !coins.IsAvailable nPos.toNat
  -- `out.n+1` is computed in `unsigned int`
  let size := (nPos + 1).toNat
  let vout := if coins.vout.length < size then resizeVout coins.vout size else coins.vout
  (fClean, { coins with vout := vout.set nPos.toNat undo.txout })

/-- `ApplyTxInUndo`, through `ModifyCoins`. -/
def applyTxInUndo (undo : TxInUndo) (view : CoinsDB) (out : OutPoint) : Bool × CoinsDB :=
  let (fClean, coins) := undo.restore out.n ((view out.hash).getD Coins.empty)
  (fClean, (CoinsOp.modify out.hash fun _ => coins).onMap view)

instance (a b : Coins) : Decidable (a.Same b) := inferInstanceAs (Decidable (_ = _))

/-- The first part of the loop body of `DisconnectBlock`: the transaction's outputs,
unspendable ones cleared, checked against the block's (`operator!=`) and removed. -/
def removeOutputs (nHeight : Int) (tx : Transaction) : Bool × CoinsDB → Bool × CoinsDB
  | (fClean, view) =>
    let outs := ((view tx.hash).getD Coins.empty).clearUnspendable
    let outsBlock := Coins.fromTx tx nHeight
    -- the coins database does not keep a negative version; it is taken from the block
    let outs := if outsBlock.nVersion < 0 then { outs with nVersion := outsBlock.nVersion } else outs
    (fClean && decide (outs.Same outsBlock), (CoinsOp.modify tx.hash fun _ => outs.clear).onMap view)

/-- The inputs put back from their undo records, the last input first. -/
def restoreInputs (txundo : TxUndo) (vin : List TxIn) : Bool × CoinsDB → Bool × CoinsDB :=
  UndoLog.backward (fun view txin undo => applyTxInUndo undo view txin.prevout) (vin.zip txundo)

/-- The loop body of `DisconnectBlock` for transaction `i`: its outputs removed, then, past
the coinbases, its inputs put back from `vtxundo[i-1]`. `none` where the source returns an
error. -/
def disconnectTx (nHeight : Int) (blockUndo : BlockUndo) (i : Nat) (tx : Transaction)
    (state : Bool × CoinsDB) : Option (Bool × CoinsDB) :=
  let state := removeOutputs nHeight tx state
  let nNonCBIdx := if isForkBlock nHeight then forkCBPerBlock else 0
  if i > nNonCBIdx then
    let txundo := blockUndo.getD (i - 1) []
    let vin := vinWithoutRandpay tx
    if txundo.length ≠ vin.length then none else some (restoreInputs txundo vin state)
  else some state

/-- The loop of `DisconnectBlock` from transaction `i` on, the last transaction first. -/
def disconnectTxs (nHeight : Int) (blockUndo : BlockUndo) :
    Nat → List Transaction → Bool × CoinsDB → Option (Bool × CoinsDB)
  | _, [], state => some state
  | i, tx :: rest, state => do
    let state ← disconnectTxs nHeight blockUndo (i + 1) rest state
    disconnectTx nHeight blockUndo i tx state

/-- `DisconnectBlock` on the coins: the undo data read from its bytes (`UndoReadFromDisk`,
its checksum not modelled), its size checked against the block, then the loop from the
last transaction. `some (fClean, view)` where the source sets `*pfClean` and returns. -/
def disconnectBlock (curve : Secp256k1) (nHeight : Int) (block : List Transaction)
    (undoBytes : List UInt8) (view : CoinsDB) : Option (Bool × CoinsDB) := do
  let (blockUndo, _) ← readBlockUndo curve undoBytes
  if blockUndo.length + 1 ≠ block.length then none
  else disconnectTxs nHeight blockUndo 0 block (true, view)

/-! ### Spent outputs put back -/

theorem dropSpentTail_eq_rdropWhile (vout : List TxOut) :
    dropSpentTail vout = vout.rdropWhile fun out => decide out.IsNull := rfl

/-- `Cleanup` keeps the outputs up to the last unspent one; the ones it drops are spent. -/
theorem dropSpentTail_append (vout : List TxOut) :
    ∃ tail, dropSpentTail vout ++ tail = vout ∧ ∀ out ∈ tail, out.IsNull :=
  ⟨_, List.rdropWhile_append_rtakeWhile, fun out mem => by
    simpa using List.mem_rtakeWhile_imp mem⟩

theorem getElem?_dropSpentTail {vout : List TxOut} {i : Nat}
    (below : i < (dropSpentTail vout).length) : (dropSpentTail vout)[i]? = vout[i]? := by
  obtain ⟨tail, split, _⟩ := dropSpentTail_append vout
  conv => rhs; rw [← split]
  rw [List.getElem?_append_left below]

theorem isNull_of_dropped {vout : List TxOut} {i : Nat} (past : (dropSpentTail vout).length ≤ i)
    (inside : i < vout.length) : vout[i].IsNull := by
  obtain ⟨tail, split, spent⟩ := dropSpentTail_append vout
  have read : vout[i]? = tail[i - (dropSpentTail vout).length]? := by
    conv => lhs; rw [← split]
    rw [List.getElem?_append_right past]
  rw [List.getElem?_eq_getElem inside] at read
  exact spent _ (List.mem_of_getElem? read.symm)

/-- Cleaned-up outputs end with an unspent one. -/
theorem last_not_isNull {vout : List TxOut} (cleaned : dropSpentTail vout = vout) {i : Nat}
    (last : i + 1 = vout.length) (inside : i < vout.length) : ¬ vout[i].IsNull := by
  have nonempty : vout ≠ [] := List.ne_nil_of_length_pos (by omega)
  have := (List.rdropWhile_eq_self_iff.mp cleaned) nonempty
  rw [List.getLast_eq_getElem] at this
  simpa [show vout.length - 1 = i by omega] using this

/-- `vout.resize(size)` read at `i`. -/
theorem getElem?_resizeVout (vout : List TxOut) (size i : Nat) :
    (resizeVout vout size)[i]? =
      if i < size then (if i < vout.length then vout[i]? else some TxOut.null) else none := by
  unfold resizeVout
  by_cases inTake : i < (vout.take size).length
  · rw [List.getElem?_append_left inTake, List.getElem?_take]
    simp only [List.length_take] at inTake
    simp [show i < size by omega, show i < vout.length by omega]
  · rw [List.getElem?_append_right (by omega), List.getElem?_replicate]
    simp only [List.length_take] at inTake ⊢
    split_ifs <;> first | rfl | omega

/-- The outputs `ApplyTxInUndo` pads before putting output `n` back. -/
theorem getElem?_padded (spent : List TxOut) (n i : Nat) :
    (if spent.length < n + 1 then resizeVout spent (n + 1) else spent)[i]? =
      if i < spent.length then spent[i]? else if i < n + 1 then some TxOut.null else none := by
  by_cases short : spent.length < n + 1
  · rw [if_pos short, getElem?_resizeVout]
    by_cases below : i < spent.length
    · rw [if_pos (by omega), if_pos below, if_pos below]
    · rw [if_neg below, if_neg below]
  · rw [if_neg short]
    by_cases below : i < spent.length
    · rw [if_pos below]
    · rw [if_neg below, if_neg (by omega), List.getElem?_eq_none (by omega)]

/-- Spending output `n` of cleaned-up outputs, then padding them as `ApplyTxInUndo` does
and putting the output back, gives the outputs back. -/
theorem restoreVout_spend {vout : List TxOut} {n : Nat} {out : TxOut}
    (cleaned : dropSpentTail vout = vout) (spentNull : ∀ o ∈ vout, o.IsNull → o = TxOut.null)
    (found : vout[n]? = some out) :
    (if (dropSpentTail (vout.set n TxOut.null)).length < n + 1 then
        resizeVout (dropSpentTail (vout.set n TxOut.null)) (n + 1)
      else dropSpentTail (vout.set n TxOut.null)).set n out = vout := by
  have inside : n < vout.length := (List.getElem?_eq_some_iff.mp found).1
  -- what `Cleanup` left of the outputs with output `n` spent
  have reads : ∀ i, i < (dropSpentTail (vout.set n TxOut.null)).length →
      (dropSpentTail (vout.set n TxOut.null))[i]? = (vout.set n TxOut.null)[i]? :=
    fun _ below => getElem?_dropSpentTail below
  have dropped : ∀ i, (dropSpentTail (vout.set n TxOut.null)).length ≤ i →
      (inside : i < (vout.set n TxOut.null).length) → (vout.set n TxOut.null)[i].IsNull :=
    fun _ past inside => isNull_of_dropped past inside
  generalize dropSpentTail (vout.set n TxOut.null) = spent at reads dropped ⊢
  apply List.ext_getElem?
  intro i
  rw [List.getElem?_set]
  by_cases here : n = i
  · subst here
    -- output `n` lies inside the padded outputs
    have padded : n < (if spent.length < n + 1 then resizeVout spent (n + 1) else spent).length := by
      by_contra outside
      have none := List.getElem?_eq_none (Nat.le_of_not_lt outside)
      rw [getElem?_padded] at none
      split_ifs at none with below
      · rw [List.getElem?_eq_getElem below] at none
        cases none
      · omega
    rw [if_pos rfl, if_pos padded, found]
  · rw [if_neg here, getElem?_padded]
    split_ifs with kept short
    · -- kept by `Cleanup`: output `i` was not spent
      rw [reads i kept, List.getElem?_set_ne here]
    · -- padding before output `n`: output `i` was spent already
      have spentAlready := dropped i (by omega) (by simp only [List.length_set]; omega)
      simp only [List.getElem_set_ne here] at spentAlready
      rw [List.getElem?_eq_getElem (by omega), spentNull _ (List.getElem_mem _) spentAlready]
    · -- past output `n` and the padding: the last output would be spent
      refine (List.getElem?_eq_none ?_).symm
      by_contra beyond
      have lastDropped := dropped (vout.length - 1) (by omega)
        (by simp only [List.length_set]; omega)
      simp only [List.getElem_set_ne (show n ≠ vout.length - 1 by omega)] at lastDropped
      exact last_not_isNull cleaned (by omega) (by omega) lastDropped

/-! ### One output spent and put back -/

/-- Coins whose spending the undo data records without loss: cleaned up, with a height in
`(0, 2^30)` and a version that is a non-negative `int`, at most `MAX_SIZE` outputs, each of
them spent (`SetNull`) or kept by `CTxOutCompressor`. -/
structure CoinsStorable (coins : Coins) : Prop where
  cleaned : dropSpentTail coins.vout = coins.vout
  height : 0 < coins.nHeight ∧ coins.nHeight < 2 ^ 30
  version : 0 ≤ coins.nVersion ∧ coins.nVersion < 2 ^ 31
  size : coins.vout.length ≤ MAX_SIZE
  outputs : ∀ out ∈ coins.vout, out = TxOut.null ∨ TxOut.Compressible out

/-- A view whose coins, the randpay coins apart, can all be stored in undo data. -/
def ViewStorable (view : CoinsDB) : Prop :=
  ∀ txid, txid ≠ randpaytx → ∀ coins, Coins.live (view txid) = some coins → CoinsStorable coins

theorem CoinsStorable.spentNull {coins : Coins} (storable : CoinsStorable coins) :
    ∀ out ∈ coins.vout, out.IsNull → out = TxOut.null := by
  intro out mem spent
  rcases storable.outputs out mem with null | ⟨⟨nonneg, _⟩, _⟩
  · exact null
  · exact absurd spent (by unfold TxOut.IsNull; omega)

theorem Coins.live_eq_some {found : Option Coins} {coins : Coins} :
    Coins.live found = some coins ↔ found = some coins ∧ coins.IsPruned = false := by
  constructor
  · intro live
    cases found with
    | none => cases live
    | some found =>
      rw [Coins.live_some] at live
      split_ifs at live with pruned
      cases live
      exact ⟨rfl, by simpa using pruned⟩
  · rintro ⟨rfl, notPruned⟩
    rw [Coins.live_some, if_neg (by simp [notPruned])]

theorem CoinsStorable.cleanup_eq {coins : Coins} (storable : CoinsStorable coins) :
    coins.cleanup = coins := by
  unfold Coins.cleanup
  rw [storable.cleaned]

theorem Coins.isPruned_of_available {coins : Coins} {n : Nat} (available : coins.IsAvailable n = true) :
    coins.IsPruned = false := by
  unfold Coins.IsAvailable at available
  cases found : coins.vout[n]? with
  | none =>
    rw [found] at available
    cases available
  | some out =>
    rw [found, Bool.not_eq_true', decide_eq_false_iff_not] at available
    rw [Coins.IsPruned, Bool.eq_false_iff]
    intro all
    exact available (of_decide_eq_true (List.all_eq_true.mp all out (List.mem_of_getElem? found)))

theorem Coins.cleanup_cleanup (coins : Coins) : coins.cleanup.cleanup = coins.cleanup := by
  simp only [Coins.cleanup, dropSpentTail_eq_rdropWhile, List.rdropWhile_idempotent]

theorem Coins.spend_eq_some {coins spent : Coins} {nPos : Nat} (spends : coins.spend nPos = some spent) :
    coins.IsAvailable nPos = true ∧
      spent = Coins.cleanup { coins with vout := coins.vout.set nPos TxOut.null } := by
  unfold Coins.spend at spends
  split_ifs at spends with available
  exact ⟨available, (Option.some.inj spends).symm⟩

theorem dropSpentTail_length_le (vout : List TxOut) :
    (dropSpentTail vout).length ≤ vout.length := by
  obtain ⟨tail, split, _⟩ := dropSpentTail_append vout
  conv => rhs; rw [← split]
  simp

/-- Cleaned-up outputs that are left are not all spent. -/
theorem Coins.isPruned_of_dropSpentTail {vout : List TxOut} (left : dropSpentTail vout ≠ []) :
    List.all (dropSpentTail vout) (fun out => decide out.IsNull) = false := by
  have last : ¬ decide ((dropSpentTail vout).getLast left).IsNull = true :=
    List.rdropWhile_last_not _ vout left
  rw [Bool.eq_false_iff]
  intro all
  exact last (List.all_eq_true.mp all _ (List.getLast_mem left))

/-- After `Spend(n)` output `n` is not available. -/
theorem Coins.spend_not_available (coins : Coins) (n : Nat) :
    (Coins.cleanup { coins with vout := coins.vout.set n TxOut.null }).IsAvailable n = false := by
  simp only [Coins.IsAvailable, Coins.cleanup]
  by_cases kept : n < (dropSpentTail (coins.vout.set n TxOut.null)).length
  · have inside : n < coins.vout.length := by
      have := dropSpentTail_length_le (coins.vout.set n TxOut.null)
      rw [List.length_set] at this
      omega
    rw [getElem?_dropSpentTail kept, List.getElem?_set_self inside]
    decide
  · rw [List.getElem?_eq_none (by omega)]

theorem unsignedOf_toNat {n : Int} (nonneg : 0 ≤ n) (fits : n < 2 ^ 32) :
    (unsignedOf n).toNat = n.toNat := by
  unfold unsignedOf
  rw [Int.emod_eq_of_lt nonneg fits]
  simp only [Nat.toUInt32_eq, UInt32.toNat_ofNat']
  omega

theorem signedOf_unsignedOf {n : Int} (nonneg : 0 ≤ n) (fits : n < 2 ^ 31) :
    signedOf (unsignedOf n) = n := by
  unfold signedOf
  rw [unsignedOf_toNat nonneg (by omega), if_pos (by omega)]
  omega

/-- Output `n` of storable coins is below `2^32 - 1`: `out.n+1` does not overflow. -/
theorem succ_toNat_of_storable {coins : Coins} {n : UInt32} (storable : CoinsStorable coins)
    (inside : n.toNat < coins.vout.length) : (n + 1).toNat = n.toNat + 1 := by
  have := storable.size
  unfold MAX_SIZE at this
  rw [UInt32.toNat_add, UInt32.toNat_one]
  omega

/-- `ApplyTxInUndo` with the record of the last unspent output puts the coins back, from
whatever pruned coins it finds. -/
theorem TxInUndo.restore_last {coins found : Coins} {n : UInt32} {out : TxOut}
    (storable : CoinsStorable coins) (outIs : coins.vout[n.toNat]? = some out)
    (last : dropSpentTail (coins.vout.set n.toNat TxOut.null) = []) (pruned : found.IsPruned = true) :
    TxInUndo.restore
        { txout := out, fCoinBase := coins.fCoinBase, nHeight := unsignedOf coins.nHeight,
          nVersion := coins.nVersion, fCoinStake := coins.fCoinStake, nTime := coins.nTime }
        n found = (true, coins) := by
  obtain ⟨nonneg, fits⟩ := storable.height
  have inside : n.toNat < coins.vout.length := (List.getElem?_eq_some_iff.mp outIs).1
  have height : unsignedOf coins.nHeight ≠ 0 := by
    intro zero
    have := unsignedOf_toNat (le_of_lt nonneg) (by omega : coins.nHeight < 2 ^ 32)
    rw [zero, UInt32.toNat_zero] at this
    omega
  have vout := restoreVout_spend storable.cleaned storable.spentNull outIs
  rw [last] at vout
  simp only [TxInUndo.restore, if_pos height, pruned, Coins.clear, Coins.IsAvailable,
    List.getElem?_nil, Bool.not_false, Bool.and_true, succ_toNat_of_storable storable inside]
  rw [vout, signedOf_unsignedOf (le_of_lt nonneg) (by omega)]

/-- `ApplyTxInUndo` with the record of an output that was not the last puts the coins back
from the coins it left. -/
theorem TxInUndo.restore_notLast {coins : Coins} {n : UInt32} {out : TxOut}
    (storable : CoinsStorable coins) (outIs : coins.vout[n.toNat]? = some out)
    (notLast : dropSpentTail (coins.vout.set n.toNat TxOut.null) ≠ []) :
    TxInUndo.restore { txout := out } n
        (Coins.cleanup { coins with vout := coins.vout.set n.toNat TxOut.null }) = (true, coins) := by
  have inside : n.toNat < coins.vout.length := (List.getElem?_eq_some_iff.mp outIs).1
  have vout := restoreVout_spend storable.cleaned storable.spentNull outIs
  have unavailable := Coins.spend_not_available coins n.toNat
  simp only [Coins.IsAvailable, Coins.cleanup] at unavailable
  simp only [TxInUndo.restore, ne_eq, not_true_eq_false, if_false, Coins.IsPruned, Coins.cleanup,
    Coins.isPruned_of_dropSpentTail notLast, Coins.IsAvailable, unavailable, Bool.not_false,
    Bool.and_self, succ_toNat_of_storable storable inside, vout]

/-- The record `UpdateCoins` writes for output `n` of `coins`. -/
theorem spendOutput_spec {view : CoinsDB} {prevout : OutPoint} {undo : TxInUndo} {view' : CoinsDB}
    (spent : spendOutput view prevout = some (undo, view')) :
    ∃ coins out, view prevout.hash = some coins ∧ coins.vout[prevout.n.toNat]? = some out ∧
      coins.IsAvailable prevout.n.toNat = true ∧
      view' = Function.update view prevout.hash
        (some (Coins.cleanup { coins with vout := coins.vout.set prevout.n.toNat TxOut.null })) ∧
      undo = if dropSpentTail (coins.vout.set prevout.n.toNat TxOut.null) = [] then
          { txout := out, fCoinBase := coins.fCoinBase, nHeight := unsignedOf coins.nHeight,
            nVersion := coins.nVersion, fCoinStake := coins.fCoinStake, nTime := coins.nTime }
        else { txout := out } := by
  simp only [spendOutput, Option.bind_eq_bind, Option.bind_eq_some_iff, Option.some.injEq] at spent
  obtain ⟨out, found, spentCoins, spends, same⟩ := spent
  obtain ⟨available, rfl⟩ := Coins.spend_eq_some spends
  cases same
  cases atHash : view prevout.hash with
  | none =>
    rw [atHash] at found
    cases found
  | some coins =>
    rw [atHash] at found available
    refine ⟨coins, out, rfl, found, available, ?_, ?_⟩
    · simp only [CoinsOp.onMap, Coins.cleanup_cleanup, Option.getD_some]
    · simp only [Coins.cleanup, List.length_eq_zero_iff, Option.getD_some]

/-- Undoing one spent output: from any view that agrees with the view after the spend, the
record puts the coins back cleanly, and the view agrees with the one before. -/
theorem applyTxInUndo_spendOutput {view view' other : CoinsDB} {prevout : OutPoint}
    {undo : TxInUndo} (stored : ViewStorable view) (notRandpay : prevout.hash ≠ randpaytx)
    (spent : spendOutput view prevout = some (undo, view')) (same : LiveEq other view') :
    ∃ other', applyTxInUndo undo other prevout = (true, other') ∧ LiveEq other' view := by
  obtain ⟨coins, out, atHash, found, available, rfl, undoIs⟩ := spendOutput_spec spent
  have storable : CoinsStorable coins :=
    stored _ notRandpay coins (Coins.live_eq_some.mpr ⟨atHash, Coins.isPruned_of_available available⟩)
  -- the other view shows the spent transaction as the spend left it
  have shows : Coins.live (other prevout.hash) =
      Coins.live (some (Coins.cleanup { coins with vout := coins.vout.set prevout.n.toNat TxOut.null })) := by
    rw [same prevout.hash, Function.update_self]
  have restored : undo.restore prevout.n ((other prevout.hash).getD Coins.empty) = (true, coins) := by
    split_ifs at undoIs with last <;> subst undoIs
    · -- the last output: the other view has only pruned coins for it
      have dead : Coins.live (some ((other prevout.hash).getD Coins.empty)) = none := by
        rw [Coins.live_getD_empty, shows]
        exact Coins.live_eq_none_of_pruned (by simp [Coins.IsPruned, Coins.cleanup, last])
      exact TxInUndo.restore_last storable found last (Coins.isPruned_of_live_eq_none dead)
    · -- another output: the other view has the coins the spend left
      have left : other prevout.hash =
          some (Coins.cleanup { coins with vout := coins.vout.set prevout.n.toNat TxOut.null }) := by
        refine (Coins.live_eq_some.mp (shows.trans (Coins.live_eq_some.mpr ⟨rfl, ?_⟩))).1
        exact Coins.isPruned_of_dropSpentTail last
      rw [left, Option.getD_some]
      exact TxInUndo.restore_notLast storable found last
  refine ⟨Function.update other prevout.hash (some coins), ?_, ?_⟩
  · simp only [applyTxInUndo, restored, CoinsOp.onMap, storable.cleanup_eq]
  · have back := LiveEq.update same (fun u ne => Function.update_of_ne ne _ _)
      (by rw [Function.update_self] : Coins.live (Function.update other prevout.hash (some coins)
        prevout.hash) = Coins.live (some coins))
    have unchanged : Function.update view prevout.hash (some coins) = view :=
      Function.update_eq_self_iff.mpr atHash.symm
    rwa [Function.update_idem, unchanged] at back

/-- The output a spend finds is unspent. -/
theorem Coins.not_isNull_of_available {coins : Coins} {n : Nat} {out : TxOut}
    (available : coins.IsAvailable n = true) (found : coins.vout[n]? = some out) : ¬ out.IsNull := by
  unfold Coins.IsAvailable at available
  rw [found, Bool.not_eq_true', decide_eq_false_iff_not] at available
  exact available

/-- `Spend` keeps coins storable. -/
theorem CoinsStorable.spend {coins : Coins} (storable : CoinsStorable coins) (n : Nat) :
    CoinsStorable (Coins.cleanup { coins with vout := coins.vout.set n TxOut.null }) where
  cleaned := by
    simp only [Coins.cleanup, dropSpentTail_eq_rdropWhile, List.rdropWhile_idempotent]
  height := storable.height
  version := storable.version
  size := by
    have := dropSpentTail_length_le (coins.vout.set n TxOut.null)
    simp only [List.length_set] at this
    exact this.trans storable.size
  outputs := by
    intro out mem
    have kept : out ∈ coins.vout.set n TxOut.null := (List.rdropWhile_prefix _ _).subset mem
    rcases List.mem_or_eq_of_mem_set kept with old | null
    · exact storable.outputs out old
    · exact Or.inl null

/-- A spend changes only the spent transaction, whose coins were live. -/
theorem spendOutput_frame {view view' : CoinsDB} {prevout : OutPoint} {undo : TxInUndo}
    (spent : spendOutput view prevout = some (undo, view')) {txid : TxHash}
    (dead : Coins.live (view txid) = none) : view' txid = view txid := by
  obtain ⟨coins, out, atHash, _, available, rfl, _⟩ := spendOutput_spec spent
  have other : txid ≠ prevout.hash := by
    rintro rfl
    rw [atHash, Coins.live_some, if_neg (by simp [Coins.isPruned_of_available available])] at dead
    cases dead
  exact Function.update_of_ne other _ _

/-- A spend keeps a view storable. -/
theorem spendOutput_keeps {view view' : CoinsDB} {prevout : OutPoint} {undo : TxInUndo}
    (stored : ViewStorable view) (notRandpay : prevout.hash ≠ randpaytx)
    (spent : spendOutput view prevout = some (undo, view')) : ViewStorable view' := by
  obtain ⟨coins, out, atHash, _, available, rfl, _⟩ := spendOutput_spec spent
  have storable : CoinsStorable coins :=
    stored _ notRandpay coins (Coins.live_eq_some.mpr ⟨atHash, Coins.isPruned_of_available available⟩)
  intro txid notRandpay' left live
  by_cases here : txid = prevout.hash
  · subst here
    rw [Function.update_self] at live
    obtain ⟨same, _⟩ := Coins.live_eq_some.mp live
    cases same
    exact storable.spend _
  · rw [Function.update_of_ne here] at live
    exact stored txid notRandpay' left live

/-- The record of a spend from a storable view can be stored. -/
theorem spendOutput_storable {view view' : CoinsDB} {prevout : OutPoint} {undo : TxInUndo}
    (stored : ViewStorable view) (notRandpay : prevout.hash ≠ randpaytx)
    (spent : spendOutput view prevout = some (undo, view')) : undo.Storable := by
  obtain ⟨coins, out, atHash, found, available, _, rfl⟩ := spendOutput_spec spent
  have storable : CoinsStorable coins :=
    stored _ notRandpay coins (Coins.live_eq_some.mpr ⟨atHash, Coins.isPruned_of_available available⟩)
  -- the spent output was unspent, so `CTxOutCompressor` keeps it
  have compressible : TxOut.Compressible out := by
    rcases storable.outputs out (List.mem_of_getElem? found) with null | kept
    · exact absurd (by rw [null]; rfl) (Coins.not_isNull_of_available available found)
    · exact kept
  obtain ⟨positive, fits⟩ := storable.height
  split_ifs
  · have height := unsignedOf_toNat (le_of_lt positive) (by omega : coins.nHeight < 2 ^ 32)
    refine ⟨by dsimp only; omega, storable.version, fun zero => ?_, compressible⟩
    dsimp only at zero
    rw [zero, UInt32.toNat_zero] at height
    omega
  · exact ⟨by dsimp only; decide, by dsimp only; decide, fun _ => rfl, compressible⟩

/-! ### A transaction's outputs removed -/

/-- `ClearUnspendable` on one output: unspendable outputs are nulled, and a null output,
with its empty script, stays as it is. -/
theorem nullUnspendable_idem (out : TxOut) :
    (if isUnspendable (if isUnspendable out.scriptPubKey then TxOut.null else out).scriptPubKey
      then TxOut.null else if isUnspendable out.scriptPubKey then TxOut.null else out) =
      if isUnspendable out.scriptPubKey then TxOut.null else out := by
  by_cases unspendable : isUnspendable out.scriptPubKey
  · simp only [unspendable, if_true]
    rfl
  · simp only [unspendable, Bool.false_eq_true, if_false]

/-- `ClearUnspendable` does nothing the second time. -/
theorem Coins.clearUnspendable_clearUnspendable (coins : Coins) :
    coins.clearUnspendable.clearUnspendable = coins.clearUnspendable := by
  simp only [Coins.clearUnspendable, Coins.cleanup, Coins.mk.injEq, and_true, true_and]
  -- the outputs left are already cleared
  have cleared : ∀ out ∈ dropSpentTail (coins.vout.map fun out =>
      if isUnspendable out.scriptPubKey then TxOut.null else out),
      (if isUnspendable out.scriptPubKey then TxOut.null else out) = out := by
    intro out mem
    obtain ⟨original, _, rfl⟩ := List.mem_map.mp ((List.rdropWhile_prefix _ _).subset mem)
    exact nullUnspendable_idem original
  rw [List.map_congr_left cleared, List.map_id', dropSpentTail_eq_rdropWhile,
    dropSpentTail_eq_rdropWhile, List.rdropWhile_idempotent]

/-- `ClearUnspendable` keeps pruned coins pruned. -/
theorem Coins.clearUnspendable_isPruned {coins : Coins} (pruned : coins.IsPruned = true) :
    coins.clearUnspendable.IsPruned = true := by
  rw [Coins.clearUnspendable, Coins.cleanup_isPruned]
  simp only [Coins.IsPruned, List.all_map, List.all_eq_true] at pruned ⊢
  intro out mem
  simp only [Function.comp_apply]
  split_ifs
  · rfl
  · exact pruned out mem

theorem Coins.live_of_not_pruned {coins : Coins} (live : coins.IsPruned = false) :
    Coins.live (some coins) = some coins := by
  rw [Coins.live_some, if_neg (by simp [live])]

theorem Coins.fromTx_cleanup (tx : Transaction) (nHeight : Int) :
    (Coins.fromTx tx nHeight).cleanup = Coins.fromTx tx nHeight :=
  Coins.cleanup_cleanup _

/-- Views that differ only where one shows nothing live agree. -/
theorem LiveEq.update_dead {view : CoinsDB} {txid : TxHash} {coins : Coins}
    (dead : Coins.live (some coins) = Coins.live (view txid)) :
    LiveEq (Function.update view txid (some coins)) view := by
  intro u
  by_cases here : u = txid
  · subst here
    rw [Function.update_self, dead]
  · rw [Function.update_of_ne here]

/-- `DisconnectBlock` finds the outputs `UpdateCoins` added as the block has them, so the
check passes, and removes them. -/
theorem removeOutputs_fromTx {nHeight : Int} {tx : Transaction} {other : CoinsDB} (clean : Bool)
    (shows : Coins.live (other tx.hash) = Coins.live (some (Coins.fromTx tx nHeight))) :
    ∃ pruned, removeOutputs nHeight tx (clean, other) =
      (clean, Function.update other tx.hash (some pruned)) ∧ pruned.IsPruned = true := by
  -- the outputs found agree with the block's under `operator==`
  have same : ∀ outs : Coins, Coins.live (some outs) = Coins.live (some (Coins.fromTx tx nHeight)) →
      (if (Coins.fromTx tx nHeight).nVersion < 0 then
          { outs with nVersion := (Coins.fromTx tx nHeight).nVersion } else outs).Same
        (Coins.fromTx tx nHeight) := by
    intro outs agree
    cases pruned : (Coins.fromTx tx nHeight).IsPruned with
    | false =>
      obtain ⟨same, _⟩ := Coins.live_eq_some.mp (agree.trans (Coins.live_of_not_pruned pruned))
      cases same
      split_ifs <;> rfl
    | true =>
      have dead := Coins.isPruned_of_live_eq_none (agree.trans (Coins.live_eq_none_of_pruned pruned))
      unfold Coins.Same
      rw [Coins.live_eq_none_of_pruned pruned, Coins.live_eq_none_of_pruned]
      split_ifs <;> exact dead
  have found : Coins.live (some ((other tx.hash).getD Coins.empty).clearUnspendable) =
      Coins.live (some (Coins.fromTx tx nHeight)) := by
    cases pruned : (Coins.fromTx tx nHeight).IsPruned with
    | false =>
      have atHash := (Coins.live_eq_some.mp (shows.trans (Coins.live_of_not_pruned pruned))).1
      rw [atHash, Option.getD_some, Coins.fromTx, Coins.clearUnspendable_clearUnspendable]
    | true =>
      have dead : Coins.live (some ((other tx.hash).getD Coins.empty)) = none := by
        rw [Coins.live_getD_empty, shows, Coins.live_eq_none_of_pruned pruned]
      rw [Coins.live_eq_none_of_pruned pruned, Coins.live_eq_none_of_pruned
        (Coins.clearUnspendable_isPruned (Coins.isPruned_of_live_eq_none dead))]
  simp only [removeOutputs, CoinsOp.onMap, decide_eq_true (same _ found), Bool.and_true]
  exact ⟨_, rfl, by rw [Coins.cleanup_isPruned]; rfl⟩

/-! ### One transaction connected and disconnected -/

/-- What connecting a transaction did: its inputs spent, then its outputs added. -/
theorem connectTx_spec {nHeight : Int} {view view' : CoinsDB} {tx : Transaction} {txundo : TxUndo}
    (connected : connectTx nHeight view tx = some (txundo, view')) :
    ∃ spent, (if tx.IsCoinBase then some ([], view) else
        UndoLog.forward (fun view txin => spendOutput view txin.prevout) (vinWithoutRandpay tx) view) =
        some (txundo, spent) ∧
      view' = Function.update spent tx.hash (some (Coins.fromTx tx nHeight)) := by
  unfold connectTx at connected
  by_cases rejected : (!tx.IsCoinBase && !haveInputs view tx) = true
  · rw [if_pos rejected] at connected
    cases connected
  rw [if_neg rejected] at connected
  -- `ModifyNewCoins` on the map does not read the coinbase flag
  have added : ∀ coinbase spent, (CoinsOp.modifyNew tx.hash coinbase fun _ => Coins.fromTx tx nHeight).onMap
      spent = Function.update spent tx.hash (some (Coins.fromTx tx nHeight)) := by
    intro coinbase spent
    simp only [CoinsOp.onMap, Coins.fromTx_cleanup]
  cases coinbase : tx.IsCoinBase
  · simp only [updateCoins, coinbase, Bool.false_eq_true, if_false, Option.bind_eq_bind,
      Option.bind_eq_some_iff] at connected
    obtain ⟨⟨records, spent⟩, ran, stored⟩ := connected
    cases stored
    exact ⟨spent, by simp only [Bool.false_eq_true, if_false, ran], added _ spent⟩
  · simp only [updateCoins, coinbase, if_true, Option.bind_eq_bind, Option.bind_some] at connected
    cases connected
    exact ⟨view, by simp only [if_true], added _ view⟩

theorem mem_vinWithoutRandpay {tx : Transaction} {txin : TxIn} (mem : txin ∈ vinWithoutRandpay tx) :
    txin.prevout.hash ≠ randpaytx := by
  simpa [vinWithoutRandpay] using (List.mem_filter.mp mem).2

/-- What the spends of one transaction keep: a storable view, and coins that are not live
stay as they are. -/
def SpendsKeep (dead : List TxHash) (view : CoinsDB) : Prop :=
  ViewStorable view ∧ ∀ txid ∈ dead, Coins.live (view txid) = none

theorem spendOutput_spendsKeep {dead : List TxHash} {view view' : CoinsDB} {txin : TxIn}
    {undo : TxInUndo} (keep : SpendsKeep dead view) (notRandpay : txin.prevout.hash ≠ randpaytx)
    (spent : spendOutput view txin.prevout = some (undo, view')) : SpendsKeep dead view' :=
  ⟨spendOutput_keeps keep.1 notRandpay spent, fun txid mem => by
    rw [spendOutput_frame spent (keep.2 txid mem)]
    exact keep.2 txid mem⟩

/-- Removing the outputs a transaction added, from a view that agrees with the one its
connection left, gives one that agrees with the view its spends left. -/
theorem removeOutputs_connected {nHeight : Int} {tx : Transaction} {spent other : CoinsDB}
    (fresh : Coins.live (spent tx.hash) = none)
    (same : LiveEq other (Function.update spent tx.hash (some (Coins.fromTx tx nHeight))))
    (clean : Bool) :
    ∃ other', removeOutputs nHeight tx (clean, other) = (clean, other') ∧ LiveEq other' spent := by
  obtain ⟨pruned, removed, isPruned⟩ := @removeOutputs_fromTx nHeight tx other clean
    (by rw [same tx.hash, Function.update_self])
  refine ⟨_, removed, ?_⟩
  have back := LiveEq.update same (fun u ne => Function.update_of_ne ne _ _)
    (by rw [Function.update_self] : Coins.live (Function.update other tx.hash (some pruned) tx.hash) =
      Coins.live (some pruned))
  rw [Function.update_idem] at back
  refine back.trans (LiveEq.update_dead ?_)
  rw [Coins.live_eq_none_of_pruned isPruned, fresh]

/-- Disconnecting a transaction other than a coinbase, past the coinbases, from a view that
agrees with the one its connection left: the check passes, every record applies cleanly, and
the view agrees with the one before the connection. -/
theorem disconnectTx_connectTx {nHeight : Int} {blockUndo : BlockUndo} {i : Nat}
    {tx : Transaction} {view view' other : CoinsDB} {txundo : TxUndo}
    (notFork : isForkBlock nHeight = false) (past : 0 < i)
    (recorded : blockUndo.getD (i - 1) [] = txundo) (notCoinbase : tx.IsCoinBase = false)
    (stored : ViewStorable view) (fresh : Coins.live (view tx.hash) = none)
    (connected : connectTx nHeight view tx = some (txundo, view')) (same : LiveEq other view')
    (clean : Bool) :
    ∃ other', disconnectTx nHeight blockUndo i tx (clean, other) = some (clean, other') ∧
      LiveEq other' view := by
  obtain ⟨spent, ran, rfl⟩ := connectTx_spec connected
  simp only [notCoinbase, Bool.false_eq_true, if_false] at ran
  have good : ∀ txin ∈ vinWithoutRandpay tx, txin.prevout.hash ≠ randpaytx :=
    fun _ mem => mem_vinWithoutRandpay mem
  have kept : SpendsKeep [tx.hash] spent :=
    UndoLog.forward_keeps (SpendsKeep [tx.hash]) (fun txin : TxIn => txin.prevout.hash ≠ randpaytx)
      (fun _ _ _ _ keep notRandpay spends => spendOutput_spendsKeep keep notRandpay spends)
      good ⟨stored, by simpa using fresh⟩ ran
  -- the outputs: found as added, and removed
  obtain ⟨other₁, removed, backToSpent⟩ :=
    removeOutputs_connected (kept.2 tx.hash List.mem_cons_self) same clean
  -- the inputs: every record applies cleanly, last first
  obtain ⟨other', restored, back⟩ := UndoLog.backward_forward (SpendsKeep [tx.hash])
    (fun txin : TxIn => txin.prevout.hash ≠ randpaytx) LiveEq
    (fun _ _ _ _ keep notRandpay spends => spendOutput_spendsKeep keep notRandpay spends)
    (fun _ _ _ _ _ keep notRandpay spends agree => applyTxInUndo_spendOutput keep.1 notRandpay spends agree)
    good ⟨stored, by simpa using fresh⟩ ran clean other₁ backToSpent
  have counted := UndoLog.forward_length ran
  refine ⟨other', ?_, back⟩
  simp only [disconnectTx, removed, notFork, Bool.false_eq_true, if_false, past, if_true, recorded,
    counted, ne_eq, not_true_eq_false, restoreInputs, restored]

/-- Disconnecting the first transaction, the coinbase: its outputs removed, and no inputs
put back. -/
theorem disconnectTx_connectCoinbase {nHeight : Int} {blockUndo : BlockUndo} {tx : Transaction}
    {view view' other : CoinsDB} {txundo : TxUndo} (coinbase : tx.IsCoinBase = true)
    (fresh : Coins.live (view tx.hash) = none)
    (connected : connectTx nHeight view tx = some (txundo, view')) (same : LiveEq other view')
    (clean : Bool) :
    ∃ other', disconnectTx nHeight blockUndo 0 tx (clean, other) = some (clean, other') ∧
      LiveEq other' view := by
  obtain ⟨spent, ran, rfl⟩ := connectTx_spec connected
  simp only [coinbase, if_true, Option.some.injEq, Prod.mk.injEq] at ran
  obtain ⟨_, rfl⟩ := ran
  obtain ⟨other', removed, back⟩ := removeOutputs_connected fresh same clean
  refine ⟨other', ?_, back⟩
  simp only [disconnectTx, removed, gt_iff_lt, Nat.not_lt_zero, if_false]

/-! ### A block connected and disconnected -/

/-- What `CheckTransaction` and deserialization establish of a transaction, as far as its
coins go: its version is an `int`, its outputs' values are in `MoneyRange`, and it has at
most `MAX_SIZE` inputs and outputs. -/
structure TxChecked (tx : Transaction) : Prop where
  version : tx.nVersion < 2 ^ 31
  moneyRange : ∀ out ∈ tx.vout, MoneyRange out.nValue
  inputs : tx.vin.length ≤ MAX_SIZE
  outputs : tx.vout.length ≤ MAX_SIZE

/-- What `CheckBlock` establishes of a block, as far as its coins go: the first transaction,
and only it, is a coinbase, the transactions have distinct hashes (a duplicate is
`bad-txns-duplicate`), each is checked, and there are at most `MAX_SIZE` of them. -/
structure BlockChecked (block : List Transaction) : Prop where
  coinbaseFirst : ∃ first rest, block = first :: rest ∧ first.IsCoinBase = true ∧
    ∀ tx ∈ rest, tx.IsCoinBase = false
  distinct : (block.map Transaction.hash).Nodup
  transactions : ∀ tx ∈ block, TxChecked tx
  size : block.length ≤ MAX_SIZE

/-- The coins `FromTx` makes of a checked transaction with a non-negative version, at a
height in `(0, 2^30)`, can be stored. -/
theorem CoinsStorable.fromTx {tx : Transaction} {nHeight : Int} (checked : TxChecked tx)
    (nonneg : 0 ≤ tx.nVersion) (height : 0 < nHeight ∧ nHeight < 2 ^ 30) :
    CoinsStorable (Coins.fromTx tx nHeight) where
  cleaned := by
    simp only [Coins.fromTx, Coins.clearUnspendable, Coins.cleanup, dropSpentTail_eq_rdropWhile,
      List.rdropWhile_idempotent]
  height := height
  version := ⟨nonneg, checked.version⟩
  size := by
    have := dropSpentTail_length_le (tx.vout.map fun out =>
      if isUnspendable out.scriptPubKey then TxOut.null else out)
    simp only [List.length_map] at this
    exact this.trans checked.outputs
  outputs := by
    intro out mem
    obtain ⟨original, inTx, rfl⟩ := List.mem_map.mp ((List.rdropWhile_prefix _ _).subset mem)
    by_cases unspendable : isUnspendable original.scriptPubKey
    · exact Or.inl (if_pos unspendable)
    · -- a spendable script is at most `MAX_SCRIPT_SIZE` bytes
      rw [if_neg unspendable]
      refine Or.inr ⟨checked.moneyRange original inTx, ?_⟩
      simp only [isUnspendable, Bool.or_eq_true, decide_eq_true_eq, not_or] at unspendable
      omega

/-- Which transactions of a block the coins connection can be undone for: checked, with a
non-negative version, and not a coinbase. -/
def Undoable (tx : Transaction) : Prop :=
  TxChecked tx ∧ 0 ≤ tx.nVersion ∧ tx.IsCoinBase = false

section
variable {nHeight : Int} (height : 0 < nHeight ∧ nHeight < 2 ^ 30)
include height

/-- Connecting a checked transaction keeps a view storable. -/
theorem connectTx_keeps {view view' : CoinsDB} {tx : Transaction} {txundo : TxUndo}
    (stored : ViewStorable view) (checked : TxChecked tx) (nonneg : 0 ≤ tx.nVersion)
    (connected : connectTx nHeight view tx = some (txundo, view')) : ViewStorable view' := by
  obtain ⟨spent, ran, rfl⟩ := connectTx_spec connected
  have spentStored : ViewStorable spent := by
    cases coinbase : tx.IsCoinBase <;>
      simp only [coinbase, Bool.false_eq_true, if_false, if_true, Option.some.injEq,
        Prod.mk.injEq] at ran
    · exact UndoLog.forward_keeps ViewStorable (fun txin : TxIn => txin.prevout.hash ≠ randpaytx)
        (fun _ _ _ _ keep notRandpay spends => spendOutput_keeps keep notRandpay spends)
        (fun _ mem => mem_vinWithoutRandpay mem) stored ran
    · rw [← ran.2]
      exact stored
  intro txid notRandpay coins live
  by_cases here : txid = tx.hash
  · subst here
    rw [Function.update_self] at live
    obtain ⟨same, _⟩ := Coins.live_eq_some.mp live
    cases same
    exact CoinsStorable.fromTx checked nonneg height
  · rw [Function.update_of_ne here] at live
    exact spentStored txid notRandpay coins live

end

/-- Connecting a transaction leaves every other transaction with no live coins as it was. -/
theorem connectTx_frame {nHeight : Int} {view view' : CoinsDB} {tx : Transaction}
    {txundo : TxUndo} (connected : connectTx nHeight view tx = some (txundo, view'))
    {txid : TxHash} (other : txid ≠ tx.hash) (dead : Coins.live (view txid) = none) :
    view' txid = view txid := by
  obtain ⟨spent, ran, rfl⟩ := connectTx_spec connected
  rw [Function.update_of_ne other]
  cases coinbase : tx.IsCoinBase <;>
    simp only [coinbase, Bool.false_eq_true, if_false, if_true, Option.some.injEq,
      Prod.mk.injEq] at ran
  · -- no spend touches coins that are not live
    exact UndoLog.forward_keeps (fun s => s txid = view txid) (fun _ : TxIn => True)
      (fun _ _ _ _ same _ spends => (spendOutput_frame spends (by rw [same]; exact dead)).trans same)
      (fun _ _ => trivial) rfl ran
  · rw [← ran.2]

/-- The undo records of a checked transaction connected on a storable view can be
serialized. -/
theorem connectTx_records {nHeight : Int} {view view' : CoinsDB} {tx : Transaction}
    {txundo : TxUndo} (stored : ViewStorable view) (checked : TxChecked tx)
    (connected : connectTx nHeight view tx = some (txundo, view')) :
    txundo.length ≤ MAX_SIZE ∧ ∀ undo ∈ txundo, undo.Storable := by
  obtain ⟨spent, ran, _⟩ := connectTx_spec connected
  cases coinbase : tx.IsCoinBase <;>
    simp only [coinbase, Bool.false_eq_true, if_false, if_true, Option.some.injEq,
      Prod.mk.injEq] at ran
  · have counted := UndoLog.forward_length ran
    have filtered : (vinWithoutRandpay tx).length ≤ tx.vin.length := List.length_filter_le _ _
    refine ⟨by have := checked.inputs; omega, ?_⟩
    exact UndoLog.forward_records ViewStorable (fun txin : TxIn => txin.prevout.hash ≠ randpaytx)
      (fun _ _ _ _ keep notRandpay spends => spendOutput_keeps keep notRandpay spends)
      (fun _ _ _ _ keep notRandpay spends => spendOutput_storable keep notRandpay spends)
      (fun _ mem => mem_vinWithoutRandpay mem) stored ran
  · rw [← ran.1]
    exact ⟨Nat.zero_le _, fun _ => nofun⟩

/-- The loop of `DisconnectBlock` over the transactions connected after the coinbase, from
the `i`-th on, whose undo records stand in `vtxundo` from `i - 1` on: from a view that
agrees with the one their connection left, every check passes, every record applies
cleanly, and the view agrees with the one before. -/
theorem disconnectTxs_forward {nHeight : Int} {blockUndo : BlockUndo}
    (height : 0 < nHeight ∧ nHeight < 2 ^ 30) (notFork : isForkBlock nHeight = false) :
    ∀ (txs : List Transaction) (pre : BlockUndo) {view view' : CoinsDB} {undos : BlockUndo},
      blockUndo = pre ++ undos → (∀ tx ∈ txs, Undoable tx) → (txs.map Transaction.hash).Nodup →
      ViewStorable view → (∀ tx ∈ txs, Coins.live (view tx.hash) = none) →
      UndoLog.forward (connectTx nHeight) txs view = some (undos, view') →
      ∀ clean other, LiveEq other view' →
        ∃ other', disconnectTxs nHeight blockUndo (pre.length + 1) txs (clean, other) =
          some (clean, other') ∧ LiveEq other' view
  | [], _, _, _, _, _, _, _, _, _, ran, _, other, same => by
    cases ran
    exact ⟨other, rfl, same⟩
  | tx :: rest, pre, view, view', _, split, undoable, distinct, stored, fresh, ran, clean, other,
      same => by
    obtain ⟨txundo, undos, view₁, rfl, connected, ranRest⟩ := UndoLog.forward_cons ran
    obtain ⟨checked, nonneg, notCoinbase⟩ := undoable tx List.mem_cons_self
    rw [List.map_cons, List.nodup_cons] at distinct
    -- the later transactions' hashes still have no live coins
    have freshRest : ∀ t ∈ rest, Coins.live (view₁ t.hash) = none := by
      intro t mem
      have other : t.hash ≠ tx.hash := fun same => distinct.1 (same ▸ List.mem_map_of_mem mem)
      rw [connectTx_frame connected other (fresh t (List.mem_cons_of_mem _ mem))]
      exact fresh t (List.mem_cons_of_mem _ mem)
    -- the later transactions are disconnected first
    obtain ⟨other₁, undoneRest, same₁⟩ := disconnectTxs_forward height notFork rest
      (pre ++ [txundo])
      (by rw [split, List.append_assoc, List.singleton_append] : blockUndo = pre ++ [txundo] ++ undos)
      (fun t mem => undoable t (List.mem_cons_of_mem _ mem)) distinct.2
      (connectTx_keeps height stored checked nonneg connected) freshRest ranRest clean other same
    have recorded : blockUndo.getD (pre.length + 1 - 1) [] = txundo := by
      simp [split, List.getD_eq_getElem?_getD]
    obtain ⟨other', undone, back⟩ := disconnectTx_connectTx notFork (Nat.succ_pos _) recorded
      notCoinbase stored (fresh tx List.mem_cons_self) connected same₁ clean
    refine ⟨other', ?_, back⟩
    rw [List.length_append, List.length_singleton] at undoneRest
    simp only [disconnectTxs, undoneRest, Option.bind_eq_bind, Option.bind_some, undone]

/-- Disconnecting a block puts its coins back. For a block outside the fork region at a
height in `(0, 2^30)`, checked as `CheckBlock` does, whose transactions have non-negative
versions, connected on a view whose coins can be stored in undo data, where the block's
transactions have no live coins (BIP 30) and the randpay coins are live:
`DisconnectBlock`, with the undo data `ConnectBlock` wrote read back from its bytes,
reports clean and leaves a view that shows every transaction's coins as before, pruned
coins and absent ones alike, and shows the randpay coins. -/
theorem disconnectBlock_connectBlock (curve : Secp256k1) {nHeight : Int} {view view' : CoinsDB}
    {block : List Transaction} {blockUndo : BlockUndo}
    (height : 0 < nHeight ∧ nHeight < 2 ^ 30) (notFork : isForkBlock nHeight = false)
    (checked : BlockChecked block) (versions : ∀ tx ∈ block, 0 ≤ tx.nVersion)
    (stored : ViewStorable view) (randpay : Coins.live (view randpaytx) = some randpayCoins)
    (bip30 : ∀ tx ∈ block, Coins.live (view tx.hash) = none)
    (connected : connectBlock nHeight view block = some (blockUndo, view')) :
    ∃ view'', disconnectBlock curve nHeight block (writeBlockUndo curve blockUndo) view' =
        some (true, view'') ∧
      (∀ txid, Coins.live (view'' txid) = Coins.live (view txid)) ∧
      view'' randpaytx = some randpayCoins := by
  obtain ⟨first, rest, rfl, coinbase, notCoinbase⟩ := checked.coinbaseFirst
  simp only [connectBlock, Option.bind_eq_bind, Option.bind_eq_some_iff] at connected
  obtain ⟨⟨_, view₀⟩, connectedFirst, ranRest⟩ := connected
  have distinct := checked.distinct
  rw [List.map_cons, List.nodup_cons] at distinct
  have undoable : ∀ tx ∈ rest, Undoable tx := fun tx mem =>
    ⟨checked.transactions tx (List.mem_cons_of_mem _ mem), versions tx (List.mem_cons_of_mem _ mem),
      notCoinbase tx mem⟩
  -- after the coinbase: a storable view, where the other transactions have no live coins
  have stored₀ := connectTx_keeps height stored (checked.transactions first List.mem_cons_self)
    (versions first List.mem_cons_self) connectedFirst
  have fresh₀ : ∀ tx ∈ rest, Coins.live (view₀ tx.hash) = none := by
    intro tx mem
    have other : tx.hash ≠ first.hash := fun same => distinct.1 (same ▸ List.mem_map_of_mem mem)
    rw [connectTx_frame connectedFirst other (bip30 tx (List.mem_cons_of_mem _ mem))]
    exact bip30 tx (List.mem_cons_of_mem _ mem)
  -- the undo data reads back as written
  have counted := UndoLog.forward_length ranRest
  have storable : ∀ txundo ∈ blockUndo, txundo.length ≤ MAX_SIZE ∧ ∀ undo ∈ txundo, undo.Storable :=
    UndoLog.forward_records ViewStorable (fun tx => TxChecked tx ∧ 0 ≤ tx.nVersion)
      (fun _ _ _ _ keep ⟨checkedTx, nonneg⟩ connectedTx => connectTx_keeps height keep checkedTx nonneg connectedTx)
      (fun _ _ _ _ keep ⟨checkedTx, _⟩ connectedTx => connectTx_records keep checkedTx connectedTx)
      (fun tx mem => ⟨(undoable tx mem).1, (undoable tx mem).2.1⟩) stored₀ ranRest
  have read := readBlockUndo_writeBlockUndo curve blockUndo
    ⟨by have := checked.size; simp only [List.length_cons] at this; omega, storable⟩ []
  rw [List.append_nil] at read
  -- the transactions after the coinbase, last first, then the coinbase
  obtain ⟨other₁, undoneRest, same₁⟩ := disconnectTxs_forward height notFork rest [] rfl undoable
    distinct.2 stored₀ fresh₀ ranRest true view' LiveEq.rfl
  obtain ⟨view'', undoneFirst, same⟩ : ∃ view'', disconnectTx nHeight blockUndo 0 first (true, other₁) =
      some (true, view'') ∧ LiveEq view'' view :=
    disconnectTx_connectCoinbase coinbase (bip30 first List.mem_cons_self) connectedFirst same₁ true
  refine ⟨view'', ?_, same, (Coins.live_eq_some.mp ((same randpaytx).trans randpay)).1⟩
  simp only [disconnectBlock, read, Option.bind_eq_bind, Option.bind_some, counted, List.length_cons,
    ne_eq, not_true_eq_false, if_false, disconnectTxs, List.length_nil, Nat.zero_add,
    List.nil_append] at undoneRest ⊢
  simp only [undoneRest, Option.bind_some, undoneFirst]

/-- A curve that accepts no key. The scripts below pay to `OP_TRUE`, so no key is
compressed and the curve is not consulted. -/
def noValidKeys : Secp256k1 where
  isFullyValid _ := false
  decompress _ := none
  decompress_parity _ _ _ valid := absurd valid Bool.false_ne_true

/-- The coins of transaction `1`: one output of `10` paying to `OP_TRUE`, at height `1`. -/
def sampleCoins (nVersion : Int) : Coins := ⟨false, [⟨10, [0x51]⟩], 1, nVersion, false, 0⟩

/-- A view with the randpay coins and the coins of transaction `1`. -/
def sampleView (nVersion : Int) : CoinsDB :=
  Function.update (Function.update (fun _ => none) randpaytx (some randpayCoins)) 1
    (some (sampleCoins nVersion))

/-- A block: a coinbase, and a transaction spending output `0` of transaction `1` and the
randpay output. -/
def sampleBlock : List Transaction :=
  [{ hash := 2, nVersion := 1, vin := [{ prevout := ⟨0, 0xffffffff⟩ }], vout := [⟨50, [0x51]⟩] },
   { hash := 3, nVersion := 1, vin := [{ prevout := ⟨1, 0⟩ }, { prevout := ⟨randpaytx, 0⟩ }],
     vout := [⟨10, [0x51]⟩] }]

theorem sampleBlock_checked : BlockChecked sampleBlock where
  coinbaseFirst := ⟨_, _, rfl, rfl, by decide⟩
  distinct := by decide
  transactions := by
    intro tx mem
    simp only [sampleBlock, List.mem_cons, List.mem_nil_iff, or_false] at mem
    rcases mem with rfl | rfl <;> exact ⟨by decide, by decide, by decide, by decide⟩
  size := by decide

theorem sampleView_storable : ViewStorable (sampleView 1) := by
  intro txid notRandpay coins live
  simp only [sampleView, Function.update_apply] at live
  split_ifs at live with one
  · obtain ⟨same, _⟩ := Coins.live_eq_some.mp live
    cases same
    refine ⟨rfl, by decide, by decide, by decide, ?_⟩
    intro out mem
    simp only [sampleCoins, List.mem_singleton] at mem
    subst mem
    exact Or.inr ⟨by decide, by decide⟩
  · cases live

theorem disconnectBlock_connectBlock_sample :
    ∃ blockUndo view' view'', connectBlock 366 (sampleView 1) sampleBlock = some (blockUndo, view') ∧
      disconnectBlock noValidKeys 366 sampleBlock (writeBlockUndo noValidKeys blockUndo) view' =
        some (true, view'') ∧
      (∀ txid, Coins.live (view'' txid) = Coins.live (sampleView 1 txid)) ∧
      view'' randpaytx = some randpayCoins := by
  obtain ⟨blockUndo, view', connected⟩ :
      ∃ blockUndo view', connectBlock 366 (sampleView 1) sampleBlock = some (blockUndo, view') :=
    ⟨_, _, rfl⟩
  obtain ⟨view'', restored⟩ := disconnectBlock_connectBlock noValidKeys (by decide) rfl
    sampleBlock_checked (by decide) sampleView_storable (by decide) (by decide) connected
  exact ⟨blockUndo, view', view'', connected, restored⟩

/-- A spent coins with a negative version does not come back: the undo record writes
`VARINT(-1)` as the one byte `0x7f`, read back as `127`, and `DisconnectBlock` still reports
clean. -/
theorem disconnectBlock_negativeVersion :
    ∃ blockUndo view' view'', connectBlock 366 (sampleView (-1)) sampleBlock = some (blockUndo, view') ∧
      disconnectBlock noValidKeys 366 sampleBlock (writeBlockUndo noValidKeys blockUndo) view' =
        some (true, view'') ∧
      Coins.live (sampleView (-1) 1) = some (sampleCoins (-1)) ∧
      Coins.live (view'' 1) = some (sampleCoins 127) := by
  refine ⟨_, _, _, rfl, rfl, by decide, ?_⟩
  decide

end MFCoin.CoinsView
