/-
Module: MFCoin.Names.Undo
Purpose: What `DisconnectInputs` restores of what `ConnectBlock` wrote. On a record's
  history it undoes a push that pruned nothing: the pop removes the entry, and the backward
  search for a `name_new` finds the chain start again when the record had the chain shape.
  It does not restore the absence of a name registered in the block: the erase of the
  emptied record is followed by the `else` branch, which writes the empty record back.
Trusted boundary: none
Main exports: lastNewIndex_of_chainStart, dropLastOperation_appendOperation,
  registrationReconnect_leaves_empty_record
-/
import MFCoin.Names.ChainShape

namespace MFCoin.Names

open MFCoin.Script

theorem lastNewIndex_eq_none {vtxPos : List NameIndex}
    (noNew : ∀ entry ∈ vtxPos, entry.op ≠ .new) : lastNewIndex vtxPos = none := by
  induction vtxPos with
  | nil => rfl
  | cons entry rest ih =>
    have restNone := ih fun e mem => noNew e (List.mem_cons_of_mem _ mem)
    simp only [lastNewIndex, restNone, noNew entry List.mem_cons_self, if_false]

theorem ChainStart.tail {entry : NameIndex} {rest : List NameIndex} {nLast : Nat}
    (chain : ChainStart (entry :: rest) (nLast + 1)) : ChainStart rest nLast where
  inBounds := by
    have := chain.inBounds
    simp only [List.length_cons] at this
    omega
  isNew := fun found atLast => chain.isNew found (by simpa using atLast)
  noLaterNew := fun j found later atJ =>
    chain.noLaterNew (j + 1) found (by omega) (by simpa using atJ)

/-- The backward search of `DisconnectInputs` finds the start of the last chain. -/
theorem lastNewIndex_of_chainStart :
    ∀ {vtxPos : List NameIndex} {nLast : Nat}, ChainStart vtxPos nLast →
      lastNewIndex vtxPos = some nLast
  | [], _, chain => absurd chain.inBounds (by simp)
  | entry :: rest, 0, chain => by
    -- the chain starts at the head, so nothing after it is a `name_new`
    have restNone : lastNewIndex rest = none := lastNewIndex_eq_none fun e mem => by
      obtain ⟨j, bound, atJ⟩ := List.getElem_of_mem mem
      refine chain.noLaterNew (j + 1) e (Nat.succ_pos j) ?_
      rw [List.getElem?_cons_succ, List.getElem?_eq_getElem bound, atJ]
    have headNew : entry.op = .new := chain.isNew entry rfl
    simp only [lastNewIndex, restNone, headNew, if_true]
  | entry :: rest, nLast + 1, chain => by
    simp only [lastNewIndex, lastNewIndex_of_chainStart chain.tail]

/-- A pruning that keeps every entry changes nothing. -/
theorem pruneHistory_eq_of_length {maxSize : Nat} {vtxPos : List NameIndex} {nLast : Nat}
    (kept : (pruneHistory maxSize vtxPos nLast).1.length = vtxPos.length) :
    pruneHistory maxSize vtxPos nLast = (vtxPos, nLast) := by
  unfold pruneHistory at kept ⊢
  split_ifs at kept ⊢ with pruned
  · simp only [List.length_drop] at kept
    omega
  · rfl

/-- Popping the entry a push added gives back the history and the chain start, when the
push pruned nothing and a `name_new` was pushed onto a record with the chain shape or onto
a name without history. -/
theorem dropLastOperation_appendOperation (maxSize : Nat) (rec : NameRecord) (op : NameTempProxy)
    (start : op.op = .new → ChainStart rec.vtxPos rec.nLastActiveChainIndex ∨
      (rec.vtxPos = [] ∧ rec.nLastActiveChainIndex = 0))
    (unpruned : (appendOperation maxSize rec op).vtxPos = rec.vtxPos ++ [{ op.ind with op := op.op }]) :
    (dropLastOperation (appendOperation maxSize rec op) op.op).vtxPos = rec.vtxPos ∧
      (dropLastOperation (appendOperation maxSize rec op) op.op).nLastActiveChainIndex =
        rec.nLastActiveChainIndex := by
  -- the pruning kept every entry, so it left the history and the index as pushed
  have kept := pruneHistory_eq_of_length (congrArg List.length unpruned)
  simp only [appendOperation, kept, dropLastOperation, List.dropLast_concat, true_and]
  split_ifs with isNew
  · rcases start isNew with chain | ⟨fresh, zero⟩
    · rw [lastNewIndex_of_chainStart chain, Option.getD_some]
    · simp [fresh, zero, lastNewIndex]
  · rfl

/-! ### A name registered and unregistered -/

/-- Fees that are always enough, and the default `-nameindexchainsize`. -/
def defaultConfig : NameConfig := ⟨holderAddress, fun _ _ _ => true, NAMEINDEX_CHAIN_SIZE⟩

/-- One block at height 1 with a `name_new` of `a` for one day, and change. -/
def registration : NameBlock :=
  ⟨1, [(fixtureTx 1 [⟨100, 0⟩] [fixtureOutput .new 1 1, ⟨5, holderDestination 1⟩], 1, 100000)]⟩

theorem registrationReconnect_leaves_empty_record :
    ∃ s s', connectBlock defaultConfig NameState.empty registration = .ok s ∧
      s.names fixtureName = some ⟨[⟨1, 1, .new, [0x76]⟩], 176, 0⟩ ∧
      disconnectBlock defaultConfig s registration = .ok s' ∧
      NameState.empty.names fixtureName = none ∧ s'.names fixtureName = some NameRecord.empty := by
  have ran : (connectBlock defaultConfig NameState.empty registration).toOption.map
      (fun s => (s.names fixtureName,
        (disconnectBlock defaultConfig s registration).toOption.map (·.names fixtureName))) =
      some (some ⟨[⟨1, 1, .new, [0x76]⟩], 176, 0⟩, some (some NameRecord.empty)) := by decide
  obtain ⟨s, connected, outcome⟩ := Option.map_eq_some_iff.mp ran
  simp only [Prod.mk.injEq] at outcome
  obtain ⟨stored, disconnected⟩ := outcome
  obtain ⟨s', disconnectedTo, storedAfter⟩ := Option.map_eq_some_iff.mp disconnected
  exact ⟨s, s', Except.toOption_eq_some connected, stored,
    Except.toOption_eq_some disconnectedTo, rfl, storedAfter⟩

end MFCoin.Names
