/-
Module: MFCoin.Names.Ownership
Purpose: Who may change a name, and where the address index says it lives.
  `CheckInputs` authorises a `name_update` or `name_delete` when some input spends any
  output of the name's last transaction: it compares `prevout.hash` only, so the change
  output of a transfer, which stays with the previous owner, is as good as the name
  output. Two operations on one name in one block are both judged against the index
  before the block, and the second `MoveName` then fails on an address the first one
  already emptied, leaving the name in no address's set.
Trusted boundary: none
Main exports: moveName_fails_of_missing, moveName_moves, changeOutput_authorises_update,
  deleteAndUpdate_loses_address
-/
import MFCoin.Names.Undo

namespace MFCoin.Names

open MFCoin.Script

/-! ### `MoveName` -/

/-- `MoveName` from an address that does not list the name fails at its first step and
changes nothing. -/
theorem moveName_fails_of_missing {s : NameState} {oldAddress newAddress : String}
    {name : NameVal} (moving : newAddress ≠ oldAddress) (named : oldAddress ≠ "")
    (missing : name ∉ s.addresses oldAddress) :
    s.moveName oldAddress newAddress name = (false, s) := by
  have erased : s.eraseSingleName oldAddress name = none := by
    simp [NameState.eraseSingleName, missing]
  unfold NameState.moveName
  rw [if_neg moving]
  dsimp only
  rw [if_pos named]
  by_cases toNamed : newAddress ≠ ""
  · simp [toNamed, andThenStep, erased]
  · simp [toNamed, andThenStep, erased]

/-- `MoveName` between two addresses, from one that lists the name to one that does not,
succeeds and leaves the name listed at the new address only. -/
theorem moveName_moves {s : NameState} {oldAddress newAddress : String} {name : NameVal}
    (moving : newAddress ≠ oldAddress) (named : oldAddress ≠ "") (toNamed : newAddress ≠ "")
    (listed : name ∈ s.addresses oldAddress) (unlisted : name ∉ s.addresses newAddress) :
    (s.moveName oldAddress newAddress name).1 = true ∧
      name ∉ (s.moveName oldAddress newAddress name).2.addresses oldAddress ∧
      name ∈ (s.moveName oldAddress newAddress name).2.addresses newAddress := by
  -- the erase at the old address does not touch the new one
  have keptUnlisted : name ∉ (Function.update s.addresses oldAddress
      ((s.addresses oldAddress).erase name)) newAddress := by
    rwa [Function.update_of_ne moving]
  unfold NameState.moveName
  rw [if_neg moving]
  dsimp only
  rw [if_pos named, if_pos toNamed]
  simp only [andThenStep, NameState.eraseSingleName, listed, if_true,
    NameState.writeSingleName, keptUnlisted, if_false]
  refine ⟨trivial, ?_, ?_⟩
  · rw [Function.update_of_ne moving.symm, Function.update_self]
    exact Finset.notMem_erase name _
  · rw [Function.update_self]
    exact Finset.mem_insert_self name _

/-! ### Spending the change of a transfer -/

/-- Holder 1 transfers `a` to holder 2 at height 2, with change back to holder 1. -/
def transferTx : Transaction :=
  fixtureTx 2 [⟨1, 0⟩] [fixtureOutput .update 0 2, ⟨5, holderDestination 1⟩]

/-- Holder 1 spends the transfer's change output and updates `a` back to itself. -/
def reclaimTx : Transaction := fixtureTx 3 [⟨2, 1⟩] [fixtureOutput .update 0 1]

theorem changeOutput_authorises_update :
    ∃ node, NameReachable defaultConfig node ∧
      node.state.names fixtureName =
        some ⟨[⟨1, 1, .new, [0x76]⟩, ⟨2, 2, .update, [0x76]⟩], 176, 0⟩ ∧
      node.state.blockFiles 2 = some transferTx ∧
      decodeNameTx transferTx =
        .ok (some ⟨⟨.update, fixtureName, [0x76], 0⟩, 0, holderDestination 2⟩) ∧
      (∀ input ∈ reclaimTx.vin, input.prevout ≠ ⟨transferTx.hash, 0⟩) ∧
      ∃ op, checkInputs defaultConfig node.state 3 reclaimTx 3 100000 = .ok (some op) ∧
        op.op = .update ∧ op.name = fixtureName := by
  have ran : (NameNode.genesis.run defaultConfig
      [.connect registration, .connect ⟨2, [(transferTx, 2, 100000)]⟩]).map
      (fun node => decide (
        node.state.names fixtureName =
          some ⟨[⟨1, 1, .new, [0x76]⟩, ⟨2, 2, .update, [0x76]⟩], 176, 0⟩ ∧
        node.state.blockFiles 2 = some transferTx ∧
        (checkInputs defaultConfig node.state 3 reclaimTx 3 100000).toOption.map
          (Option.map fun op => (op.op, op.name)) = some (some (.update, fixtureName)))) =
      some true := by decide
  obtain ⟨node, ranTo, facts⟩ := Option.map_eq_some_iff.mp ran
  obtain ⟨stored, file, checked⟩ := of_decide_eq_true facts
  obtain ⟨pushed, accepted, pushedOp⟩ := Option.map_eq_some_iff.mp checked
  obtain ⟨op, rfl, opFields⟩ := Option.map_eq_some_iff.mp pushedOp
  simp only [Prod.mk.injEq] at opFields
  exact ⟨node, NameNode.reachable_of_run defaultConfig .refl ranTo, stored, file, by decide,
    by decide, op, Except.toOption_eq_some accepted, opFields⟩

/-! ### Two operations on one name in one block -/

/-- Holder 1 deletes `a`, spending its name output. -/
def deleteTx : Transaction := fixtureTx 2 [⟨1, 0⟩] [fixtureOutput .delete 0 1]

/-- Holder 1 updates `a` to holder 2, spending the registration's change output. -/
def updateTx : Transaction := fixtureTx 3 [⟨1, 1⟩] [fixtureOutput .update 0 2]

theorem deleteAndUpdate_loses_address :
    ∃ node, NameReachable defaultConfig node ∧
      node.state.names fixtureName =
        some ⟨[⟨1, 1, .new, [0x76]⟩, ⟨2, 2, .delete, []⟩, ⟨3, 2, .update, [0x76]⟩], 1, 0⟩ ∧
      node.state.blockFiles 3 = some updateTx ∧
      defaultConfig.addressOf (holderDestination 2) = "holder2" ∧
      fixtureName ∉ node.state.addresses "holder2" ∧
      fixtureName ∉ node.state.addresses "holder1" := by
  have ran : (NameNode.genesis.run defaultConfig
      [.connect registration, .connect ⟨2, [(deleteTx, 2, 100000), (updateTx, 3, 100000)]⟩]).map
      (fun node => decide (
        node.state.names fixtureName =
          some ⟨[⟨1, 1, .new, [0x76]⟩, ⟨2, 2, .delete, []⟩, ⟨3, 2, .update, [0x76]⟩], 1, 0⟩ ∧
        node.state.blockFiles 3 = some updateTx ∧
        fixtureName ∉ node.state.addresses "holder2" ∧
        fixtureName ∉ node.state.addresses "holder1")) = some true := by decide
  obtain ⟨node, ranTo, facts⟩ := Option.map_eq_some_iff.mp ran
  obtain ⟨stored, file, notHolder2, notHolder1⟩ := of_decide_eq_true facts
  exact ⟨node, NameNode.reachable_of_run defaultConfig .refl ranTo, stored, file, by decide,
    notHolder2, notHolder1⟩

end MFCoin.Names
