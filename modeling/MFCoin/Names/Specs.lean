/-
Module: MFCoin.Names.Specs
Purpose: One inversion lemma for each name hook and helper: what a successful call has
  read and checked, and what it hands back. Later proofs cite these and never unfold the
  hooks again.
Trusted boundary: none
Main exports: readName_ok, calculateExpiresAt_history, lastNameTx_found,
  previousNameOk_true, nameOpAllowed_previous, checkInputs_accepted, checkInputs_previous,
  collectNames_mem, storeBlock_names, connectBlock_ok
-/
import MFCoin.Names.Hooks

namespace MFCoin.Names

open MFCoin.Script

variable (cfg : NameConfig)

/-- A successful `ReadName` returns what is stored. -/
theorem readName_ok {s : NameState} {name : NameVal} {read : Option NameRecord}
    (ok : readName s name = .ok read) : s.names name = read := by
  unfold readName at ok
  split at ok
  · rename_i absent
    cases ok
    exact absent
  · rename_i rec stored
    split_ifs at ok
    cases ok
    exact stored

/-- `CalculateExpiresAt` sets the expiry and nothing else. -/
theorem calculateExpiresAt_history {s : NameState} {rec rec' : NameRecord}
    (calculated : calculateExpiresAt s rec = .ok (some rec')) :
    rec'.vtxPos = rec.vtxPos ∧ rec'.nLastActiveChainIndex = rec.nLastActiveChainIndex := by
  simp only [calculateExpiresAt] at calculated
  split_ifs at calculated
  · cases calculated
    exact ⟨rfl, rfl⟩
  · obtain ⟨sum, -, calculated⟩ := Except.bind_eq_ok.mp calculated
    cases sum with
    | none => cases calculated
    | some sum =>
      cases calculated
      exact ⟨rfl, rfl⟩

/-- A previous transaction `CheckInputs` found is the last entry of a live history, read
from the block files and decoded, and `found` is the hash scan over the inputs. -/
theorem lastNameTx_found {s : NameState} {rec : NameRecord} {tx : Transaction}
    {prev : NameTxInfo} {found : Bool}
    (read : lastNameTx s rec tx = .ok (some (some (prev, found)))) :
    ∃ last lastTx, rec.vtxPos.getLast? = some last ∧ rec.deleted = false ∧
      s.blockFiles last.txPos = some lastTx ∧ decodeNameTx lastTx = .ok (some prev) ∧
      found = spendsFrom tx lastTx.hash := by
  unfold lastNameTx at read
  split at read
  · cases read
  · rename_i last getLast
    split_ifs at read with deleted
    · cases read
    · split at read
      · cases read
      · rename_i lastTx file
        obtain ⟨decoded, decodeOk, read⟩ := Except.bind_eq_ok.mp read
        cases decoded with
        | none => cases read
        | some prev' =>
          cases read
          exact ⟨last, lastTx, getLast, by simpa using deleted, file,
            Except.mapError_eq_ok.mp decodeOk, rfl⟩

theorem previousNameOk_true {nti : NameTxInfo} {prev : Option (NameTxInfo × Bool)}
    (ok : previousNameOk nti prev = true) :
    ∃ prevNti, prev = some (prevNti, true) ∧
      (prevNti.info.op = .new ∨ prevNti.info.op = .update) ∧
      prevNti.info.name = nti.info.name := by
  match prev, ok with
  | some (prevNti, found), ok =>
    simp only [previousNameOk, Bool.and_eq_true, Bool.or_eq_true, beq_iff_eq] at ok
    obtain ⟨⟨isFound, op⟩, name⟩ := ok
    exact ⟨prevNti, by rw [isFound], op, name⟩

/-- An accepted `name_update` or `name_delete` had a previous `name_new` or `name_update` of
the same name, found by the input scan, on an active name. -/
theorem nameOpAllowed_previous {nti : NameTxInfo} {height fee : Int}
    {prev : Option (NameTxInfo × Bool)} {active : Bool}
    (allowed : nameOpAllowed cfg nti height fee prev active = true)
    (notNew : nti.info.op ≠ .new) :
    previousNameOk nti prev = true ∧ active = true := by
  unfold nameOpAllowed at allowed
  cases op : nti.info.op with
  | new => exact absurd op notNew
  | update =>
    rw [op] at allowed
    simp only [Bool.and_eq_true] at allowed
    exact ⟨allowed.1.2, allowed.2⟩
  | delete =>
    rw [op] at allowed
    simpa only [Bool.and_eq_true] using allowed

/-- The inversion of `CheckInputs`: what an accepted transaction has passed, and the
operation pushed to `vName`. -/
theorem checkInputs_accepted {s : NameState} {height : Int} {tx : Transaction}
    {pos : DiskTxPos} {fee : Int} {op : NameTempProxy}
    (accepted : checkInputs cfg s height tx pos fee = .ok (some op)) :
    ∃ nti read prev active,
      decodeNameTx tx = .ok (some nti) ∧ readName s nti.info.name = .ok read ∧
      lastNameTx s (read.getD NameRecord.empty) tx = .ok (some prev) ∧
      nameActive s nti.info.name height = .ok active ∧
      nameOpAllowed cfg nti height fee prev active = true ∧
      op = { nTime := tx.nTime, name := nti.info.name, op := nti.info.op, hash := tx.hash,
             ind := ⟨pos, height, nti.info.op, nti.info.value⟩,
             address := if nti.info.op ≠ .delete then cfg.addressOf nti.destination else "",
             prevAddress := prevAddressOf cfg prev } := by
  simp only [checkInputs] at accepted
  by_cases version : tx.nVersion ≠ NAMECOIN_TX_VERSION
  · rw [if_pos version] at accepted
    cases accepted
  rw [if_neg version] at accepted
  obtain ⟨decoded, decodeOk, accepted⟩ := Except.bind_eq_ok.mp accepted
  cases decoded with
  | none => cases accepted
  | some nti =>
    obtain ⟨read, readOk, accepted⟩ := Except.bind_eq_ok.mp accepted
    obtain ⟨prev, lastOk, accepted⟩ := Except.bind_eq_ok.mp accepted
    cases prev with
    | none => cases accepted
    | some prev =>
      obtain ⟨active, activeOk, accepted⟩ := Except.bind_eq_ok.mp accepted
      cases allowed : nameOpAllowed cfg nti height fee prev active with
      | false => simp [allowed] at accepted
      | true =>
        simp only [allowed, Bool.not_true, Bool.false_eq_true, if_false, Except.pure_eq_ok,
          Option.some.injEq] at accepted
        exact ⟨nti, read, prev, active, Except.mapError_eq_ok.mp decodeOk, readOk, lastOk,
          activeOk, allowed, accepted.symm⟩

/-- An accepted `name_update` or `name_delete` names a stored record whose last transaction
is on disk and is spent from by some input, by hash. -/
theorem checkInputs_previous {s : NameState} {height : Int} {tx : Transaction}
    {pos : DiskTxPos} {fee : Int} {op : NameTempProxy}
    (accepted : checkInputs cfg s height tx pos fee = .ok (some op)) (notNew : op.op ≠ .new) :
    ∃ rec last lastTx, s.names op.name = some rec ∧ rec.vtxPos.getLast? = some last ∧
      s.blockFiles last.txPos = some lastTx ∧ spendsFrom tx lastTx.hash = true := by
  obtain ⟨nti, read, prev, active, -, readOk, lastOk, -, allowed, rfl⟩ :=
    checkInputs_accepted cfg accepted
  obtain ⟨previous, -⟩ := nameOpAllowed_previous cfg allowed notNew
  obtain ⟨prevNti, rfl, -, -⟩ := previousNameOk_true previous
  obtain ⟨last, lastTx, getLast, -, file, -, spends⟩ := lastNameTx_found lastOk
  -- a record with a last entry is not the empty default: it was read from the database
  cases read with
  | none => simp [NameRecord.empty] at getLast
  | some rec => exact ⟨rec, last, lastTx, readName_ok readOk, getLast, file, spends.symm⟩

/-- Every operation `collectNames` gathers was accepted by `CheckInputs` for one of the
block's transactions. -/
theorem collectNames_mem {s : NameState} {height : Int} :
    ∀ {txs : List (Transaction × DiskTxPos × Int)} {ops : List NameTempProxy},
      collectNames cfg s height txs = .ok ops → ∀ op ∈ ops,
        ∃ entry ∈ txs, checkInputs cfg s height entry.1 entry.2.1 entry.2.2 = .ok (some op)
  | [], ops, collected, op, mem => by
    simp only [collectNames, Except.ok.injEq] at collected
    subst collected
    cases mem
  | (tx, pos, fee) :: rest, ops, collected, op, mem => by
    simp only [collectNames, Except.bind_eq_ok, Except.pure_eq_ok] at collected
    obtain ⟨first, firstOk, others, othersOk, rfl⟩ := collected
    rcases List.mem_append.mp mem with fromFirst | fromRest
    · cases first with
      | none => cases fromFirst
      | some first =>
        simp only [Option.toList_some, List.mem_singleton] at fromFirst
        exact ⟨(tx, pos, fee), List.mem_cons_self, fromFirst ▸ firstOk⟩
    · obtain ⟨entry, mem, checked⟩ := collectNames_mem othersOk op fromRest
      exact ⟨entry, List.mem_cons_of_mem _ mem, checked⟩

/-- Storing a block touches the block files and the transaction index only. -/
@[simp] theorem storeBlock_names (s : NameState) (block : NameBlock) :
    (s.storeBlock block).names = s.names := by
  unfold NameState.storeBlock
  generalize block.txs = txs
  induction txs generalizing s with
  | nil => rfl
  | cons entry rest ih => exact ih _

/-- The inversion of a block connection. -/
theorem connectBlock_ok {s s' : NameState} {block : NameBlock}
    (connected : connectBlock cfg s block = .ok s') :
    ∃ vName moved, collectNames cfg (s.storeBlock block) block.height block.txs = .ok vName ∧
      connectNames cfg (s.storeBlock block) ∅ vName = .ok (moved, s') := by
  simp only [connectBlock, Except.bind_eq_ok, Except.pure_eq_ok] at connected
  obtain ⟨vName, collected, ⟨moved, s''⟩, ran, rfl⟩ := connected
  exact ⟨vName, moved, collected, ran⟩

end MFCoin.Names
