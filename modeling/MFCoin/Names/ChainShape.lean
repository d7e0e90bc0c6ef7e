/-
Module: MFCoin.Names.ChainShape
Purpose: The shape of stored name records that `CNameDB::ReadName`'s assert and
  `CalculateExpiresAt`'s unchecked `vtxPos[nLastActiveChainIndex]` rely on. Connecting
  blocks keeps it: a push either starts a new chain or extends the last one, and pruning
  keeps the whole last chain. Disconnecting a block after pruning does not: the backward
  search for a `name_new` finds none and leaves the index past the end of the history.
Trusted boundary: none
Main exports: ChainStart, NameState.ChainShaped, chainShaped_of_connects,
  NameRecord.WellFormed, prunedReorg
-/
import MFCoin.Names.Specs

namespace MFCoin.Names

open MFCoin.Script

/-- `nLast` starts the last active chain of `vtxPos`: it points into the history at a
`name_new`, and no later entry is a `name_new`. -/
structure ChainStart (vtxPos : List NameIndex) (nLast : Nat) : Prop where
  inBounds : nLast < vtxPos.length
  isNew : ∀ entry, vtxPos[nLast]? = some entry → entry.op = .new
  noLaterNew : ∀ j entry, nLast < j → vtxPos[j]? = some entry → entry.op ≠ .new

namespace ChainStart

variable {vtxPos : List NameIndex} {nLast : Nat} {entry : NameIndex}

/-- A pushed `name_new` starts a chain of its own. -/
theorem push_new (isNew : entry.op = .new) : ChainStart (vtxPos ++ [entry]) vtxPos.length where
  inBounds := by simp
  isNew := by
    intro found atEnd
    rw [List.getElem?_concat_length, Option.some.injEq] at atEnd
    exact atEnd ▸ isNew
  noLaterNew := by
    intro j found later atJ
    have past : (vtxPos ++ [entry]).length ≤ j := by simp; omega
    rw [List.getElem?_eq_none past] at atJ
    cases atJ

/-- Any other push extends the last chain. -/
theorem push (chain : ChainStart vtxPos nLast) (notNew : entry.op ≠ .new) :
    ChainStart (vtxPos ++ [entry]) nLast where
  inBounds := by
    have := chain.inBounds
    simp only [List.length_append, List.length_singleton]
    omega
  isNew := by
    intro found atLast
    rw [List.getElem?_append_left chain.inBounds] at atLast
    exact chain.isNew found atLast
  noLaterNew := by
    intro j found later atJ
    rcases Nat.lt_trichotomy j vtxPos.length with inside | atEnd | past
    · rw [List.getElem?_append_left inside] at atJ
      exact chain.noLaterNew j found later atJ
    · rw [atEnd, List.getElem?_concat_length, Option.some.injEq] at atJ
      exact atJ ▸ notNew
    · rw [List.getElem?_eq_none (by simp; omega)] at atJ
      cases atJ

/-- Pruning drops entries before the last chain only: it runs when
`size - nLast + 1 ≤ maxSize`, so the `size - maxSize` dropped entries all precede
`nLast`. -/
theorem prune (maxSize : Nat) (chain : ChainStart vtxPos nLast) :
    ChainStart (pruneHistory maxSize vtxPos nLast).1 (pruneHistory maxSize vtxPos nLast).2 := by
  unfold pruneHistory
  split_ifs with pruned
  · dsimp only
    have before : vtxPos.length - maxSize < nLast := by
      have := chain.inBounds
      omega
    refine ⟨?_, ?_, ?_⟩
    · have := chain.inBounds
      simp only [List.length_drop]
      omega
    · intro found atLast
      rw [List.getElem?_drop, Nat.add_sub_cancel' before.le] at atLast
      exact chain.isNew found atLast
    · intro j found later atJ
      rw [List.getElem?_drop] at atJ
      exact chain.noLaterNew _ found (by omega) atJ
  · exact chain

end ChainStart

/-- The record `ConnectBlock` builds keeps the chain shape, provided an operation that is
not a `name_new` extends a record that had it. -/
theorem chainStart_appendOperation (maxSize : Nat) (rec : NameRecord) (op : NameTempProxy)
    (start : op.op = .new ∨ ChainStart rec.vtxPos rec.nLastActiveChainIndex) :
    ChainStart (appendOperation maxSize rec op).vtxPos
      (appendOperation maxSize rec op).nLastActiveChainIndex := by
  unfold appendOperation
  apply ChainStart.prune
  split_ifs with isNew
  · have pushed := @ChainStart.push_new rec.vtxPos { op.ind with op := op.op } isNew
    simpa using pushed
  · exact (start.resolve_left isNew).push isNew

/-- Every stored record starts its last active chain where it says. -/
def NameState.ChainShaped (s : NameState) : Prop :=
  ∀ name rec, s.names name = some rec → ChainStart rec.vtxPos rec.nLastActiveChainIndex

namespace NameState.ChainShaped

variable {s s' : NameState}

theorem of_names_eq (shaped : s.ChainShaped) (same : s'.names = s.names) : s'.ChainShaped := by
  intro name rec stored
  rw [same] at stored
  exact shaped name rec stored

theorem writeName (shaped : s.ChainShaped) {name : NameVal} {rec : NameRecord}
    (start : ChainStart rec.vtxPos rec.nLastActiveChainIndex) :
    (s.writeName name rec).ChainShaped := by
  intro other found stored
  rw [NameState.writeName_names, Function.update_apply] at stored
  split_ifs at stored
  · cases stored
    exact start
  · exact shaped other found stored

end NameState.ChainShaped

/-- A name with a record keeps one after a write. -/
theorem writeName_stored {s : NameState} {name other : NameVal} {rec : NameRecord}
    (stored : s.names other ≠ none) : (s.writeName name rec).names other ≠ none := by
  rw [NameState.writeName_names, Function.update_apply]
  split_ifs
  · simp
  · exact stored

variable (cfg : NameConfig)

/-- The `ConnectBlock` loop keeps the chain shape when every operation other than a
`name_new` is on a name that has a record. -/
theorem connectNames_chainShaped {moved : Bool} {s' : NameState} :
    ∀ {ops : List NameTempProxy} {s : NameState} {seen : Finset NameVal}, s.ChainShaped →
      (∀ op ∈ ops, op.op ≠ .new → s.names op.name ≠ none) →
      connectNames cfg s seen ops = .ok (moved, s') → s'.ChainShaped
  | [], s, seen, shaped, _, ran => by
    simp only [connectNames, Except.ok.injEq, Prod.mk.injEq] at ran
    exact ran.2 ▸ shaped
  | op :: rest, s, seen, shaped, previous, ran => by
    simp only [connectNames] at ran
    obtain ⟨read, readOk, ran⟩ := Except.bind_eq_ok.mp ran
    -- dropping the pending entry leaves the records alone
    have shaped₁ : (s.unpend op.name op.hash).ChainShaped := shaped
    have previousRest : ∀ o ∈ rest, o.op ≠ .new → (s.unpend op.name op.hash).names o.name ≠ none :=
      fun o mem => previous o (List.mem_cons_of_mem _ mem)
    split at ran
    · exact connectNames_chainShaped shaped₁ previousRest ran
    obtain ⟨calculated, calculatedOk, ran⟩ := Except.bind_eq_ok.mp ran
    cases calculated with
    | none =>
      dsimp only at ran
      simp only [Except.pure_eq_ok, Prod.mk.injEq] at ran
      exact ran.2 ▸ shaped₁
    | some record =>
      -- the record written has the shape of the appended history
      have start : ChainStart record.vtxPos record.nLastActiveChainIndex := by
        obtain ⟨sameHistory, sameLast⟩ := calculateExpiresAt_history calculatedOk
        rw [sameHistory, sameLast]
        apply chainStart_appendOperation
        by_cases isNew : op.op = .new
        · exact .inl isNew
        · obtain ⟨rec, stored⟩ :=
            Option.ne_none_iff_exists'.mp (previous op List.mem_cons_self isNew)
          have readRec : read = some rec := (readName_ok readOk).symm.trans stored
          exact .inr (readRec ▸ shaped op.name rec stored)
      have written : ((s.unpend op.name op.hash).writeName op.name record).ChainShaped :=
        shaped₁.writeName start
      have moved := written.of_names_eq
        (NameState.moveName_names _ op.prevAddress op.address op.name)
      dsimp only at ran
      split at ran
      · simp only [Except.pure_eq_ok, Prod.mk.injEq] at ran
        exact ran.2 ▸ moved
      · refine connectNames_chainShaped moved (fun o mem notNew => ?_) ran
        rw [NameState.moveName_names]
        exact writeName_stored (previousRest o mem notNew)

/-- Connecting a block keeps the chain shape: `CheckInputs` accepts an update or a delete
only for a name with a live record. -/
theorem connectBlock_chainShaped {s s' : NameState} {block : NameBlock}
    (shaped : s.ChainShaped) (connected : connectBlock cfg s block = .ok s') :
    s'.ChainShaped := by
  obtain ⟨vName, moved, collected, ran⟩ := connectBlock_ok cfg connected
  have stored : (s.storeBlock block).ChainShaped :=
    shaped.of_names_eq (storeBlock_names s block)
  refine connectNames_chainShaped cfg stored (fun op mem notNew => ?_) ran
  obtain ⟨entry, -, accepted⟩ := collectNames_mem cfg collected op mem
  obtain ⟨rec, -, -, found, -, -, -⟩ := checkInputs_previous cfg accepted notNew
  rw [found]
  exact Option.some_ne_none rec

theorem chainShaped_genesis : NameNode.genesis.state.ChainShaped := by
  intro name rec stored
  cases stored

/-- Without reorganisations every stored record has the chain shape, so `ReadName`'s
assert never fires and `CalculateExpiresAt` reads inside the history. -/
theorem chainShaped_of_connects {node : NameNode}
    (run : Relation.ReflTransGen (BlockConnect cfg) NameNode.genesis node) :
    node.state.ChainShaped := by
  induction run with
  | refl => exact chainShaped_genesis
  | tail _ step shaped =>
    cases step with
    | mk above fresh connected => exact connectBlock_chainShaped cfg shaped connected

/-! ### Well-formed records -/

/-- Every `name_delete` of a history is its last entry or is followed by a `name_new`. -/
def DeletesRestart (vtxPos : List NameIndex) : Prop :=
  vtxPos.IsChain fun a b => a.op = .delete → b.op = .new

/-- A well-formed record: a non-empty history has the chain shape and restarts after every
`name_delete`. -/
def NameRecord.WellFormed (rec : NameRecord) : Prop :=
  rec.vtxPos ≠ [] → ChainStart rec.vtxPos rec.nLastActiveChainIndex ∧ DeletesRestart rec.vtxPos

/-! ### A disconnection after pruning -/

/-- The name `a`. -/
def fixtureName : NameVal := [0x61]

/-- The destination of a key holder: pay to the key hash made of the byte `holder`. -/
def holderDestination (holder : UInt8) : Script := payToPubKeyHash (List.replicate 20 holder)

/-- `CBitcoinAddress::ToString` on the holders' destinations: distinct and non-empty. -/
def holderAddress (script : Script) : String :=
  if script = holderDestination 1 then "holder1"
  else if script = holderDestination 2 then "holder2"
  else if script = holderDestination 3 then "holder3"
  else "other"

/-- The name output a wallet builds for `a` with value `v`: `createNameScript`, then the
holder's destination. -/
def fixtureOutput (op : NameOp) (days : Int) (holder : UInt8) : TxOut :=
  ⟨1000000, (createNameScript fixtureName [0x76] days op).toOption.getD [] ++
    holderDestination holder⟩

/-- A name transaction spending `inputs`. -/
def fixtureTx (hash : TxHash) (inputs : List OutPoint) (outputs : List TxOut) : Transaction :=
  { hash := hash, nVersion := NAMECOIN_TX_VERSION,
    vin := inputs.map fun prevout => { prevout := prevout }, vout := outputs }

/-- Fees that are always enough, and `-nameindexchainsize=2`. -/
def pruningConfig : NameConfig := ⟨holderAddress, fun _ _ _ => true, 2⟩

/-- A `name_new` of `a` for one day at height 1, an update at height 2 (the name expires at
height 176), a new `name_new` after expiry at height 200, which prunes the history to its
last two entries, and the disconnection of that block. -/
def prunedReorg : List NameAction :=
  [.connect ⟨1, [(fixtureTx 1 [⟨100, 0⟩] [fixtureOutput .new 1 1], 1, 100000)]⟩,
   .connect ⟨2, [(fixtureTx 2 [⟨1, 0⟩] [fixtureOutput .update 0 1], 2, 100000)]⟩,
   .connect ⟨200, [(fixtureTx 3 [⟨101, 0⟩] [fixtureOutput .new 1 2], 3, 100000)]⟩,
   .disconnect]

theorem prunedReorg_breaks_wellFormed :
    ∃ node, NameReachable pruningConfig node ∧
      ∃ rec, node.state.names fixtureName = some rec ∧ ¬ rec.WellFormed ∧
        readName node.state fixtureName = .error .assertion := by
  have ran : (NameNode.genesis.run pruningConfig prunedReorg).map (·.state.names fixtureName) =
      some (some ⟨[⟨2, 2, .update, [0x76]⟩], 0, 1⟩) := by decide
  obtain ⟨node, ranTo, stored⟩ := Option.map_eq_some_iff.mp ran
  refine ⟨node, NameNode.reachable_of_run pruningConfig .refl ranTo, _, stored, ?_, ?_⟩
  · -- the update is all that is left, and the index still points past it
    intro wellFormed
    have chain := (wellFormed (List.cons_ne_nil _ _)).1
    exact absurd chain.inBounds (by decide)
  · simp [readName, stored]

end MFCoin.Names
