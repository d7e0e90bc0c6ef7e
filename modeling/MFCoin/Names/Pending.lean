/-
Module: MFCoin.Names.Pending
Purpose: The pending-name map `mapNamePending` next to the memory pool it is meant to
  mirror: `CNamecoinHooks::CheckPendingNames` and `AddToPendingNames` (namecoin.cpp), the
  name gate and the final add of `AcceptToMemoryPoolWorker` (validation.cpp), and the
  pool's removals (txmempool.cpp): `Expire`, `TrimToSize`, replacement, and
  `removeForBlock` after a connected block. Only a connected block's name hook drops
  entries from the map, so a name transaction that leaves the pool any other way keeps
  its name blocked.
Trusted boundary: `PoolConfig.policy` stands for the checks of `AcceptToMemoryPoolWorker`
  that do not involve names (standardness, inputs, fees, scripts); the sets a
  replacement or `TrimToSize` removes are chosen by the step.
Main exports: PoolEntry, PoolState, checkPendingNames, addToPendingNames,
  acceptToMemoryPool, PoolStep, PoolReachable, expiredNameStaysPending
-/
import MFCoin.Names.Ownership

namespace MFCoin.Names

open MFCoin.Script

/-- An entry of `mapTx`: the transaction and the time it entered the pool. -/
structure PoolEntry where
  tx : Transaction
  time : Int
deriving DecidableEq, Repr

/-- The pool, the name databases with the connected blocks, and the transactions whose
coins `pcoinsTip` holds. -/
structure PoolState where
  node : NameNode
  mapTx : List PoolEntry
  inChain : Finset TxHash

/-- Everything the pool code reads that the model does not compute. -/
structure PoolConfig where
  names : NameConfig
  /-- The checks of `AcceptToMemoryPoolWorker` besides the name gate. -/
  policy : PoolState → Transaction → Bool

/-- `CTxMemPool::exists`. -/
def PoolState.exists (pool : PoolState) (hash : TxHash) : Bool :=
  pool.mapTx.any fun entry => entry.tx.hash == hash

/-! ### The pending-name hooks -/

/-- `CNamecoinHooks::CheckPendingNames(tx)`: refuses a transaction whose coins are already
in the chain, one without outputs or name, and one on a name with a pending operation. -/
def checkPendingNames (pool : PoolState) (tx : Transaction) : Except ScriptNumError Bool := do
  if tx.hash ∈ pool.inChain then return false
  if tx.vout.length < 1 then return false
  let some nti ← decodeNameTx tx | return false
  return pool.node.state.pending nti.info.name = ∅

/-- `CNamecoinHooks::AddToPendingNames(tx)`. -/
def addToPendingNames (pool : PoolState) (tx : Transaction) : Except ScriptNumError PoolState := do
  if tx.hash ∈ pool.inChain then return pool
  if tx.vout.length < 1 then return pool
  let some nti ← decodeNameTx tx | return pool
  let s := pool.node.state
  let pending := Function.update s.pending nti.info.name (insert tx.hash (s.pending nti.info.name))
  return { pool with node := { pool.node with state := { s with pending := pending } } }

/-! ### Removals -/

/-- The pool entries that spend an output of one of `parents`: `GetMemPoolChildren`. -/
def childrenOf (mapTx : List PoolEntry) (parents : Finset TxHash) : Finset TxHash :=
  (mapTx.filter fun entry => entry.tx.vin.any fun input => input.prevout.hash ∈ parents).map
    (·.tx.hash) |>.toFinset

/-- `CalculateDescendants` over a set: add children until nothing new appears; each round
adds a pool entry or stops, so `mapTx.length` rounds suffice. -/
def descendantsOf (mapTx : List PoolEntry) : Nat → Finset TxHash → Finset TxHash
  | 0, stage => stage
  | fuel + 1, stage => descendantsOf mapTx fuel (stage ∪ childrenOf mapTx stage)

/-- `RemoveStaged`: drop the staged entries; the pending map is not touched. -/
def PoolState.removeStaged (pool : PoolState) (stage : Finset TxHash) : PoolState :=
  { pool with mapTx := pool.mapTx.filter fun entry => entry.tx.hash ∉ stage }

/-- Removing a set of entries together with their descendants (`removeRecursive`,
`TrimToSize`, the replaced conflicts of an acceptance). -/
def PoolState.removeRecursive (pool : PoolState) (hashes : Finset TxHash) : PoolState :=
  pool.removeStaged (descendantsOf pool.mapTx pool.mapTx.length hashes)

/-- `CTxMemPool::Expire(time)`: entries that entered before `time`, with descendants. -/
def PoolState.expire (pool : PoolState) (time : Int) : PoolState :=
  pool.removeRecursive ((pool.mapTx.filter fun entry => entry.time < time).map
    (·.tx.hash) |>.toFinset)

/-- The entries that spend an input of `tx` and are not `tx`: `removeConflicts`. -/
def conflictsOf (mapTx : List PoolEntry) (tx : Transaction) : Finset TxHash :=
  (mapTx.filter fun entry => entry.tx.hash ≠ tx.hash ∧
    entry.tx.vin.any fun input => tx.vin.any fun spent => spent.prevout == input.prevout).map
    (·.tx.hash) |>.toFinset

/-- `CTxMemPool::removeForBlock`: each transaction of the block leaves the pool (its
descendants stay), and so do its conflicts with their descendants. -/
def PoolState.removeForBlock (pool : PoolState) (vtx : List Transaction) : PoolState :=
  vtx.foldl (fun pool tx =>
    (pool.removeStaged {tx.hash}).removeRecursive (conflictsOf pool.mapTx tx)) pool

/-! ### Acceptance -/

/-- `AcceptToMemoryPoolWorker` for a transaction at time `now`: the name gate, the other
checks, removal of the replaced conflicts, `addUnchecked`, `LimitMempoolSize` evicting
`evicted`, and `AddToPendingNames`. The flag is the return value; a transaction trimmed
right away returns `false` after the removals. -/
def acceptToMemoryPool (poolCfg : PoolConfig) (pool : PoolState) (tx : Transaction)
    (now : Int) (replaced evicted : Finset TxHash) : Except ScriptNumError (Bool × PoolState) := do
  let isNameTx := tx.nVersion = NAMECOIN_TX_VERSION
  if isNameTx ∧ !(← checkPendingNames pool tx) then return (false, pool)
  if !poolCfg.policy pool tx then return (false, pool)
  if pool.exists tx.hash then return (false, pool)
  let pool := pool.removeRecursive replaced
  let pool := { pool with mapTx := pool.mapTx ++ [PoolEntry.mk tx now] }
  let pool := pool.removeRecursive evicted
  if !pool.exists tx.hash then return (false, pool)
  if isNameTx then return (true, ← addToPendingNames pool tx)
  return (true, pool)

/-- A name transaction on a name with a pending operation is refused by the name gate,
and the pool is left as it was. -/
theorem acceptToMemoryPool_refuses_pending (poolCfg : PoolConfig) {pool : PoolState}
    {tx : Transaction} {nti : NameTxInfo} (now : Int) (replaced evicted : Finset TxHash)
    (isName : tx.nVersion = NAMECOIN_TX_VERSION) (notInChain : tx.hash ∉ pool.inChain)
    (hasOutput : 1 ≤ tx.vout.length) (decoded : decodeNameTx tx = .ok (some nti))
    (pending : pool.node.state.pending nti.info.name ≠ ∅) :
    acceptToMemoryPool poolCfg pool tx now replaced evicted = .ok (false, pool) := by
  have gate : checkPendingNames pool tx = .ok false := by
    simp [checkPendingNames, notInChain, decoded, pending, Nat.not_lt.mpr hasOutput]
  simp [acceptToMemoryPool, isName, gate]

/-! ### Runs -/

/-- A pool step: an acceptance, an expiry, a trim, a block connected on top of the tip
(its name hook, then `removeForBlock`), or the tip disconnected. -/
inductive PoolStep (poolCfg : PoolConfig) : PoolState → PoolState → Prop where
  | accept {pool pool' : PoolState} {tx : Transaction} {now : Int}
      {replaced evicted : Finset TxHash} {accepted : Bool}
      (ran : acceptToMemoryPool poolCfg pool tx now replaced evicted = .ok (accepted, pool')) :
      PoolStep poolCfg pool pool'
  | expire (pool : PoolState) (time : Int) : PoolStep poolCfg pool (pool.expire time)
  | trim (pool : PoolState) (evicted : Finset TxHash) :
      PoolStep poolCfg pool (pool.removeRecursive evicted)
  | connect {pool : PoolState} {block : NameBlock} {s : NameState}
      (step : BlockConnect poolCfg.names pool.node ⟨s, block :: pool.node.chain⟩) :
      PoolStep poolCfg pool
        (PoolState.removeForBlock
          { pool with node := ⟨s, block :: pool.node.chain⟩,
                      inChain := pool.inChain ∪ (block.txs.map (·.1.hash)).toFinset }
          (block.txs.map (·.1)))
  | disconnect {pool : PoolState} {block : NameBlock} {rest : List NameBlock} {s : NameState}
      (tip : pool.node.chain = block :: rest)
      (disconnected : disconnectBlock poolCfg.names pool.node.state block = .ok s) :
      PoolStep poolCfg pool
        { pool with node := ⟨s, rest⟩,
                    inChain := pool.inChain \ (block.txs.map (·.1.hash)).toFinset }

/-- An empty pool on an empty index. -/
def PoolState.genesis : PoolState := ⟨NameNode.genesis, [], ∅⟩

/-- Pool states reachable from the empty one. -/
def PoolReachable (poolCfg : PoolConfig) (pool : PoolState) : Prop :=
  Relation.ReflTransGen (PoolStep poolCfg) PoolState.genesis pool

/-- What the pool is asked to do next. -/
inductive PoolAction where
  | accept (tx : Transaction) (now : Int) (replaced evicted : Finset TxHash)
  | expire (time : Int)
  | trim (evicted : Finset TxHash)

/-- One action; `none` when a hook throws. -/
def PoolState.apply (poolCfg : PoolConfig) (pool : PoolState) : PoolAction → Option PoolState
  | .accept tx now replaced evicted =>
    (acceptToMemoryPool poolCfg pool tx now replaced evicted).toOption.map (·.2)
  | .expire time => some (pool.expire time)
  | .trim evicted => some (pool.removeRecursive evicted)

/-- A sequence of actions. -/
def PoolState.run (poolCfg : PoolConfig) (pool : PoolState) : List PoolAction → Option PoolState
  | [] => some pool
  | action :: rest => (pool.apply poolCfg action).bind (·.run poolCfg rest)

theorem PoolState.reachable_of_run (poolCfg : PoolConfig) {pool pool' : PoolState}
    {actions : List PoolAction} (start : PoolReachable poolCfg pool)
    (ran : pool.run poolCfg actions = some pool') : PoolReachable poolCfg pool' := by
  induction actions generalizing pool with
  | nil =>
    simp only [PoolState.run, Option.some.injEq] at ran
    exact ran ▸ start
  | cons action rest ih =>
    simp only [PoolState.run] at ran
    obtain ⟨next, applied, ranRest⟩ := Option.bind_eq_some_iff.mp ran
    refine ih (start.tail ?_) ranRest
    cases action with
    | accept tx now replaced evicted =>
      obtain ⟨⟨flag, pool''⟩, ran, rfl⟩ := Option.map_eq_some_iff.mp applied
      exact .accept (Except.toOption_eq_some ran)
    | expire time =>
      cases applied
      exact .expire pool time
    | trim evicted =>
      cases applied
      exact .trim pool evicted

/-! ### A name transaction that expires -/

/-- A registration of `a` by holder 1, sent to the pool. -/
def pendingRegistration : Transaction :=
  fixtureTx 1 [⟨100, 0⟩] [fixtureOutput .new 1 1, ⟨5, holderDestination 1⟩]

/-- Another registration of `a`, by holder 2. -/
def laterRegistration : Transaction :=
  fixtureTx 2 [⟨101, 0⟩] [fixtureOutput .new 1 2]

/-- The pool accepts every transaction that passes the name gate. -/
def openPool : PoolConfig := ⟨defaultConfig, fun _ _ => true⟩

theorem expiredNameStaysPending :
    ∃ pool, PoolReachable openPool pool ∧
      pendingRegistration.hash ∈ pool.node.state.pending fixtureName ∧
      pool.exists pendingRegistration.hash = false ∧
      acceptToMemoryPool openPool pool laterRegistration 2 ∅ ∅ = .ok (false, pool) := by
  -- the registration enters the pool at time 0 and has expired by time 1
  have ran : (PoolState.genesis.run openPool [.accept pendingRegistration 0 ∅ ∅, .expire 1]).map
      (fun pool => decide (pendingRegistration.hash ∈ pool.node.state.pending fixtureName ∧
        pool.exists pendingRegistration.hash = false ∧
        laterRegistration.hash ∉ pool.inChain)) = some true := by decide
  obtain ⟨pool, ranTo, facts⟩ := Option.map_eq_some_iff.mp ran
  obtain ⟨pending, gone, notInChain⟩ := of_decide_eq_true facts
  refine ⟨pool, PoolState.reachable_of_run openPool .refl ranTo, pending, gone, ?_⟩
  have decoded : decodeNameTx laterRegistration =
      .ok (some ⟨⟨.new, fixtureName, [0x76], 1⟩, 0, holderDestination 2⟩) := by decide
  exact acceptToMemoryPool_refuses_pending openPool 2 ∅ ∅ rfl notInChain (by decide) decoded
    (Finset.ne_empty_of_mem pending)

end MFCoin.Names
