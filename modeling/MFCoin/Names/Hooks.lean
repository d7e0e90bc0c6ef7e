/-
Module: MFCoin.Names.Hooks
Purpose: The three block hooks of the name index (src/src/namecoin.cpp) and the way
  validation.cpp drives them: `CNamecoinHooks::CheckInputs` judges every transaction of a
  block against the index as it was before the block, `CNamecoinHooks::ConnectBlock`
  applies the collected operations (with history pruning and the address moves), and
  `CNamecoinHooks::DisconnectInputs` undoes one transaction, run over a block in reverse
  order. A node steps by connecting a block on top of its tip or disconnecting the tip.
Trusted boundary: the functions of `NameConfig` (see MFCoin.Names.Record).
Main exports: NameTempProxy, checkInputs, connectNames, disconnectInputs, connectBlock,
  disconnectBlock, NameNode, BlockConnect, NameStep, NameReachable, NameNode.run,
  NameNode.reachable_of_run
-/
import MFCoin.Names.Record
import MFCoin.Lib.ExceptRun
import Mathlib.Logic.Relation

namespace MFCoin.Names

open MFCoin.Script

variable (cfg : NameConfig)

/-- `nameTempProxy`: one accepted name operation, waiting for `ConnectBlock`. -/
structure NameTempProxy where
  nTime : UInt32
  name : NameVal
  op : NameOp
  hash : TxHash
  ind : NameIndex
  address : String
  prevAddress : String
deriving DecidableEq, Repr

/-- Whether some input of `tx` spends any output of the transaction with hash `lasthash`.
This is the whole authorisation test of `CheckInputs`: it compares `prevout.hash` only. -/
def spendsFrom (tx : Transaction) (lasthash : TxHash) : Bool :=
  tx.vin.any fun input => input.prevout.hash == lasthash

/-- The previous name transaction `CheckInputs` reads for a live name: its decoded info and
whether `tx` spends from it. `some none` for a name without a live record; `none` when the
last transaction cannot be read or decoded, which rejects `tx`. -/
def lastNameTx (s : NameState) (rec : NameRecord) (tx : Transaction) :
    Except HookFault (Option (Option (NameTxInfo × Bool))) :=
  match rec.vtxPos.getLast? with
  | none => .ok (some none)
  | some last =>
    if rec.deleted then .ok (some none)
    else
      match s.blockFiles last.txPos with
      | none => .ok none
      | some lastTx => do
        let some prev ← (decodeNameTx lastTx).mapError .scriptNum | return none
        return some (some (prev, spendsFrom tx lastTx.hash))

/-- The address `CheckInputs` records as the name's previous owner: empty unless a live
previous transaction was decoded and is not a `name_delete`. -/
def prevAddressOf (prev : Option (NameTxInfo × Bool)) : String :=
  match prev with
  | some (prevNti, _) => if prevNti.info.op ≠ .delete then cfg.addressOf prevNti.destination else ""
  | none => ""

/-- The test `CheckInputs` makes of the previous transaction for `name_update` and
`name_delete`: found by the input scan, a `name_new` or `name_update`, of the same name. -/
def previousNameOk (nti : NameTxInfo) (prev : Option (NameTxInfo × Bool)) : Bool :=
  match prev with
  | some (prevNti, found) =>
    found && (prevNti.info.op == .new || prevNti.info.op == .update) &&
      prevNti.info.name == nti.info.name
  | none => false

/-- The per-operation checks of `CheckInputs` once the transaction and the previous name
transaction are decoded. `active` is `NameActive` at the block's height. -/
def nameOpAllowed (nti : NameTxInfo) (height fee : Int) (prev : Option (NameTxInfo × Bool))
    (active : Bool) : Bool :=
  match nti.info.op with
  | .new => cfg.nameFeeEnough nti.info height fee && !active
  | .update => cfg.nameFeeEnough nti.info height fee && previousNameOk nti prev && active
  | .delete => previousNameOk nti prev && active

/-- `CNamecoinHooks::CheckInputs(tx, pindexBlock, vName, pos, txFee)`: the operation to push
to `vName`, or `none` when the hook returns `false`. -/
def checkInputs (s : NameState) (height : Int) (tx : Transaction) (pos : DiskTxPos)
    (fee : Int) : Except HookFault (Option NameTempProxy) := do
  if tx.nVersion ≠ NAMECOIN_TX_VERSION then return none
  let some nti ← (decodeNameTx tx).mapError .scriptNum | return none
  let record := (← readName s nti.info.name).getD NameRecord.empty
  let some prev ← lastNameTx s record tx | return none
  let active ← nameActive s nti.info.name height
  if !nameOpAllowed cfg nti height fee prev active then return none
  -- the source leaves `ind.op` unset; `ConnectBlock` assigns it before anything reads it
  return some
    { nTime := tx.nTime
      name := nti.info.name
      op := nti.info.op
      hash := tx.hash
      ind := ⟨pos, height, nti.info.op, nti.info.value⟩
      address := if nti.info.op ≠ .delete then cfg.addressOf nti.destination else ""
      prevAddress := prevAddressOf cfg prev }

/-- The `-nameindexchainsize` pruning of `ConnectBlock`: drop from the front down to
`maxSize` entries when the last active chain still fits. Its `size - nLast + 1` cannot
wrap: the record passed `ReadName` before the push. -/
def pruneHistory (maxSize : Nat) (vtxPos : List NameIndex) (nLast : Nat) :
    List NameIndex × Nat :=
  if vtxPos.length > maxSize ∧ vtxPos.length - nLast + 1 ≤ maxSize then
    let d := vtxPos.length - maxSize
    (vtxPos.drop d, nLast - d)
  else (vtxPos, nLast)

/-- One operation of `ConnectBlock` applied to the record read from the database: the
push, a new chain start for `name_new`, and the pruning. -/
def appendOperation (maxSize : Nat) (rec : NameRecord) (op : NameTempProxy) : NameRecord :=
  -- `vtxPos.back().op = i.op` comes after the pruning, which never drops the pushed entry
  let vtxPos := rec.vtxPos ++ [{ op.ind with op := op.op }]
  let nLast := if op.op = .new then vtxPos.length - 1 else rec.nLastActiveChainIndex
  let pruned := pruneHistory maxSize vtxPos nLast
  { vtxPos := pruned.1, nExpiresAt := rec.nExpiresAt, nLastActiveChainIndex := pruned.2 }

/-- `mapNamePending[name].erase(hash)`, dropping the key once its set is empty. -/
def NameState.unpend (s : NameState) (name : NameVal) (hash : TxHash) : NameState :=
  { s with pending := Function.update s.pending name ((s.pending name).erase hash) }

/-- The loop of `CNamecoinHooks::ConnectBlock`. `sNameNew` holds the names that already got
a `name_new` in this block. The result is the hook's return value and the databases; a
failed expiry computation or address move returns at once. -/
def connectNames (s : NameState) (sNameNew : Finset NameVal) :
    List NameTempProxy → Except HookFault (Bool × NameState)
  | [] => .ok (true, s)
  | i :: rest => do
    let s := s.unpend i.name i.hash
    let record := (← readName s i.name).getD NameRecord.empty
    -- only the first name_new of a name in a block is written
    if i.op = .new ∧ i.name ∈ sNameNew then connectNames s sNameNew rest else
    let some record ← calculateExpiresAt s (appendOperation cfg.chainSize record i)
      | return (false, s)
    let s := s.writeName i.name record
    let sNameNew := if i.op = .new then insert i.name sNameNew else sNameNew
    let (moved, s) := s.moveName i.prevAddress i.address i.name
    if !moved then return (false, s)
    connectNames s sNameNew rest

/-- The position of the last `name_new` in a history: the backwards search of
`DisconnectInputs`, which looks at the later entries first. -/
def lastNewIndex : List NameIndex → Option Nat
  | [] => none
  | entry :: rest =>
    match lastNewIndex rest with
    | some i => some (i + 1)
    | none => if entry.op = .new then some 0 else none

/-- The history part of `DisconnectInputs`: pop the last entry and, when a `name_new` was
disconnected, search backwards for the previous one; without one the index stays. -/
def dropLastOperation (rec : NameRecord) (op : NameOp) : NameRecord :=
  let vtxPos := rec.vtxPos.dropLast
  let nLast :=
    if op = .new then (lastNewIndex vtxPos).getD rec.nLastActiveChainIndex
    else rec.nLastActiveChainIndex
  { vtxPos := vtxPos, nExpiresAt := rec.nExpiresAt, nLastActiveChainIndex := nLast }

/-- The address `DisconnectInputs` moves the name back to: that of the new last
transaction of a live history, or empty. `none` when that transaction cannot be read or
decoded, which makes the hook return before the move. -/
def restoredAddress (s : NameState) (rec : NameRecord) :
    Except HookFault (Option String) :=
  match rec.vtxPos.getLast? with
  | none => .ok (some "")
  | some last =>
    if rec.deleted then .ok (some "")
    else do
      let some prev ← decodeAt s last.txPos | return none
      return some (cfg.addressOf prev.destination)

/-- `CNamecoinHooks::DisconnectInputs(tx)`. The erase of an emptied record is followed by
the `else` branch all the same, which writes the empty record back. -/
def disconnectInputs (s : NameState) (tx : Transaction) : Except HookFault (Bool × NameState) := do
  if tx.nVersion ≠ NAMECOIN_TX_VERSION then return (false, s)
  let some nti ← (decodeNameTx tx).mapError .scriptNum | return (false, s)
  let some record ← readName s nti.info.name | return (false, s)
  let some back := record.vtxPos.getLast? | return (true, s.eraseName nti.info.name)
  let some postx := s.txIndex tx.hash | return (false, s)
  if postx ≠ back.txPos then
    -- a match further back is a corrupt index: `assert(!found)`
    if postx ∈ record.vtxPos.dropLast.map (·.txPos) then throw .assertion
    return (false, s)
  let popped := dropLastOperation record nti.info.op
  let s := if popped.vtxPos = [] then s.eraseName nti.info.name else s
  let some record ← calculateExpiresAt s popped | return (false, s)
  let s := s.writeName nti.info.name record
  let oldAddress := if nti.info.op ≠ .delete then cfg.addressOf nti.destination else ""
  let some newAddress ← restoredAddress cfg s record | return (false, s)
  return s.moveName oldAddress newAddress nti.info.name

/-! ### Blocks -/

/-- A block as the name code sees it: its height and, for each transaction, where it was
written in the block files and the fee it pays. -/
structure NameBlock where
  height : Int
  txs : List (Transaction × DiskTxPos × Int)

/-- The block is on disk before it is connected, and `ConnectBlock` writes the transaction
index (`WriteTxIndex(vPos)`) before the name hook runs. -/
def NameState.storeBlock (s : NameState) (block : NameBlock) : NameState :=
  block.txs.foldl (fun s entry =>
    { s with
      blockFiles := Function.update s.blockFiles entry.2.1 (some entry.1)
      txIndex := Function.update s.txIndex entry.1.hash (some entry.2.1) }) s

/-- The `CheckInputs` loop of validation's `ConnectBlock`: every transaction is judged
against the same index, before any operation of the block is applied. -/
def collectNames (s : NameState) (height : Int) :
    List (Transaction × DiskTxPos × Int) → Except HookFault (List NameTempProxy)
  | [] => .ok []
  | (tx, pos, fee) :: rest => do
    let first ← checkInputs cfg s height tx pos fee
    let others ← collectNames s height rest
    return first.toList ++ others

/-- Connecting a block: store it, collect its name operations, run the hook. -/
def connectBlock (s : NameState) (block : NameBlock) : Except HookFault NameState := do
  let s := s.storeBlock block
  let vName ← collectNames cfg s block.height block.txs
  let (_, s) ← connectNames cfg s ∅ vName
  return s

/-- `DisconnectInputs` on each transaction of a block, last first; return values are
ignored. -/
def disconnectTxs (s : NameState) : List Transaction → Except HookFault NameState
  | [] => .ok s
  | tx :: rest => do
    let (_, s) ← disconnectInputs cfg s tx
    disconnectTxs s rest

/-- Disconnecting a block: validation's `DisconnectBlock` name loop. -/
def disconnectBlock (s : NameState) (block : NameBlock) : Except HookFault NameState :=
  disconnectTxs cfg s (block.txs.map (·.1)).reverse

/-! ### Runs -/

/-- The name databases together with the blocks connected so far, tip first. -/
structure NameNode where
  state : NameState
  chain : List NameBlock

/-- The height of the tip, or `0` below the first block. -/
def NameNode.tipHeight (node : NameNode) : Int :=
  match node.chain with
  | [] => 0
  | tip :: _ => tip.height

/-- Connecting a block above the tip. Blocks without name transactions do not touch the
index, so heights only have to grow. A block is written at positions that are free or
already hold its own transactions. -/
inductive BlockConnect : NameNode → NameNode → Prop where
  | mk {node : NameNode} {block : NameBlock} {s : NameState}
      (above : node.tipHeight < block.height)
      (fresh : ∀ entry ∈ block.txs, node.state.blockFiles entry.2.1 = none ∨
        node.state.blockFiles entry.2.1 = some entry.1)
      (connected : connectBlock cfg node.state block = .ok s) :
      BlockConnect node ⟨s, block :: node.chain⟩

/-- One step of a node: connect a block, or disconnect the tip. -/
inductive NameStep : NameNode → NameNode → Prop where
  | connect {node node' : NameNode} (step : BlockConnect cfg node node') : NameStep node node'
  | disconnect {node : NameNode} {block : NameBlock} {rest : List NameBlock} {s : NameState}
      (tip : node.chain = block :: rest)
      (disconnected : disconnectBlock cfg node.state block = .ok s) :
      NameStep node ⟨s, rest⟩

/-- The node with empty databases and no blocks. -/
def NameNode.genesis : NameNode := ⟨NameState.empty, []⟩

/-- Nodes reachable from the empty index. -/
def NameReachable (node : NameNode) : Prop :=
  Relation.ReflTransGen (NameStep cfg) NameNode.genesis node

/-! ### Running a node -/

/-- What a node is asked to do next. -/
inductive NameAction where
  | connect (block : NameBlock)
  | disconnect

/-- One action, or `none` when the block is refused or a hook stops the node. -/
def NameNode.apply (node : NameNode) : NameAction → Option NameNode
  | .connect block =>
    if node.tipHeight < block.height ∧ ∀ entry ∈ block.txs,
        node.state.blockFiles entry.2.1 = none ∨ node.state.blockFiles entry.2.1 = some entry.1
    then (connectBlock cfg node.state block).toOption.map (⟨·, block :: node.chain⟩)
    else none
  | .disconnect =>
    match node.chain with
    | [] => none
    | block :: rest => (disconnectBlock cfg node.state block).toOption.map (⟨·, rest⟩)

/-- A sequence of actions. -/
def NameNode.run (node : NameNode) : List NameAction → Option NameNode
  | [] => some node
  | action :: rest => (node.apply cfg action).bind (·.run rest)

theorem NameNode.step_of_apply {node node' : NameNode} {action : NameAction}
    (applied : node.apply cfg action = some node') : NameStep cfg node node' := by
  cases action with
  | connect block =>
    simp only [NameNode.apply] at applied
    split_ifs at applied with allowed
    obtain ⟨s, connected, rfl⟩ := Option.map_eq_some_iff.mp applied
    exact .connect (.mk allowed.1 allowed.2 (Except.toOption_eq_some connected))
  | disconnect =>
    simp only [NameNode.apply] at applied
    split at applied
    · contradiction
    · rename_i block rest tip
      obtain ⟨s, disconnected, rfl⟩ := Option.map_eq_some_iff.mp applied
      exact .disconnect tip (Except.toOption_eq_some disconnected)

/-- Every node a run produces is reachable from where it started. -/
theorem NameNode.reachable_of_run {node node' : NameNode} {actions : List NameAction}
    (start : NameReachable cfg node) (ran : node.run cfg actions = some node') :
    NameReachable cfg node' := by
  induction actions generalizing node with
  | nil =>
    simp only [NameNode.run, Option.some.injEq] at ran
    exact ran ▸ start
  | cons action rest ih =>
    simp only [NameNode.run] at ran
    obtain ⟨next, applied, ranRest⟩ := Option.bind_eq_some_iff.mp ran
    exact ih (start.tail (NameNode.step_of_apply cfg applied)) ranRest

end MFCoin.Names
