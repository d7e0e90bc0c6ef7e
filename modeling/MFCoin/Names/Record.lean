/-
Module: MFCoin.Names.Record
Purpose: The data of the name index (src/src/namecoin.h, namecoin.cpp): `CNameIndex`,
  `CNameRecord`, the two Berkeley databases `nameindexV2.dat` and `nameaddress.dat`, the
  pending-name map, and the read-side helpers every hook shares: `CNameDB::ReadName` with
  its corruption assert, `DecodeNameTx`, `CalculateExpiresAt`, `NameActive`, and the
  address operations `WriteSingleName`, `EraseSingleName`, `MoveName`.
Trusted boundary: `NameConfig.addressOf` stands for `ExtractDestination` followed by
  `CBitcoinAddress::ToString`, and `NameConfig.nameFeeEnough` for `::IsNameFeeEnough`,
  which reads the proof-of-work history of the chain.
Main exports: NameIndex, NameRecord, NameTxInfo, decodeNameTx, NameState, readName,
  calculateExpiresAt, nameActive, moveName
-/
import MFCoin.Script.NameScript
import Mathlib.Data.Finset.Basic

namespace MFCoin.Names

open MFCoin.Script

/-- `CNameVal`, the bytes of a name or a value. -/
abbrev NameVal := List UInt8

/-- `CDiskTxPos`: where a transaction sits in the block files. Positions are only compared
and looked up. -/
abbrev DiskTxPos := Nat

/-- `NAMEINDEX_CHAIN_SIZE`, the default of `-nameindexchainsize`. -/
def NAMEINDEX_CHAIN_SIZE : Nat := 1000

/-- The functions outside the name code that the hooks call, and the
`-nameindexchainsize` setting. -/
structure NameConfig where
  /-- `CBitcoinAddress(dest).ToString()` of the destination `ExtractDestination` reads
  from the script after the name prefix. -/
  addressOf : Script → String
  /-- `::IsNameFeeEnough(nti, pindexBlock, txFee)` at a block height. -/
  nameFeeEnough : NameScriptInfo → Int → Int → Bool
  /-- `GetArg("-nameindexchainsize", NAMEINDEX_CHAIN_SIZE)`. -/
  chainSize : Nat

/-! ### Records -/

/-- `CNameIndex`: one operation in a name's history. -/
structure NameIndex where
  txPos : DiskTxPos
  nHeight : Int
  op : NameOp
  value : NameVal
deriving DecidableEq, Repr

/-- `CNameRecord`: the history of a name and where its last active chain starts. -/
structure NameRecord where
  vtxPos : List NameIndex
  nExpiresAt : Int
  nLastActiveChainIndex : Nat
deriving DecidableEq, Repr

/-- `CNameRecord()`. -/
def NameRecord.empty : NameRecord := ⟨[], 0, 0⟩

/-- `CNameRecord::deleted`: an empty history counts as deleted. -/
def NameRecord.deleted (rec : NameRecord) : Bool :=
  match rec.vtxPos.getLast? with
  | none => true
  | some last => last.op == .delete

/-! ### Decoding a name transaction -/

/-- What `DecodeNameTx` extracts: the decoded prefix, the index of the name output, and the
script after the prefix, from which the address is taken when it is asked for. -/
structure NameTxInfo where
  info : NameScriptInfo
  nOut : Nat
  destination : Script
deriving DecidableEq, Repr

/-- The output loop of `DecodeNameTx`: a second name output makes the whole decoding fail,
and a `scriptnum_error` from any output read before it escapes. -/
def scanNameOutputs : List TxOut → Nat → Option NameTxInfo →
    Except ScriptNumError (Option NameTxInfo)
  | [], _, found => .ok found
  | out :: rest, i, found =>
    match decodeNameScript out.scriptPubKey 0 with
    | .ok (info, pc) =>
      match found with
      | some _ => .ok none
      | none => scanNameOutputs rest (i + 1) (some ⟨info, i, out.scriptPubKey.drop pc⟩)
    | .error (.rejected _) => scanNameOutputs rest (i + 1) found
    | .error (.scriptNum e) => .error e

/-- `DecodeNameTx(tx, nti)`: only `NAMECOIN_TX_VERSION` transactions carry names. -/
def decodeNameTx (tx : Transaction) : Except ScriptNumError (Option NameTxInfo) :=
  if tx.nVersion ≠ NAMECOIN_TX_VERSION then .ok none
  else scanNameOutputs tx.vout 0 none

/-! ### Databases -/

/-- How a hook stops the node instead of returning: an `assert` (the corrupt-index check
in `ReadName`, the position check in `DisconnectInputs`) or an escaping
`scriptnum_error`. -/
inductive HookFault where
  | assertion
  | scriptNum (error : ScriptNumError)
deriving DecidableEq, Repr

/-- Everything the name hooks read and write. The address database maps an address to its
name set; an address without a record behaves as the empty set for every operation
modelled here. `mapNamePending` likewise holds a key exactly when its set is non-empty. -/
structure NameState where
  /-- `nameindex/nameindexV2.dat`, key `("namei", name)`. -/
  names : NameVal → Option NameRecord
  /-- `nameindex/nameaddress.dat`, key `("addressi", address)`. -/
  addresses : String → Finset NameVal
  /-- `mapNamePending`. -/
  pending : NameVal → Finset TxHash
  /-- The block files, read by `GetTransaction(CDiskTxPos)`. -/
  blockFiles : DiskTxPos → Option Transaction
  /-- The transaction index, read by `ReadTxIndex`. -/
  txIndex : TxHash → Option DiskTxPos

/-- A node that has never seen a name. -/
def NameState.empty : NameState :=
  ⟨fun _ => none, fun _ => ∅, fun _ => ∅, fun _ => none, fun _ => none⟩

/-- `CNameDB::ReadName`: a stored record whose `nLastActiveChainIndex` is outside a
non-empty history deletes the database and fails the assert. An absent name reads as
`none`. -/
def readName (s : NameState) (name : NameVal) : Except HookFault (Option NameRecord) :=
  match s.names name with
  | none => .ok none
  | some rec =>
    if 0 < rec.vtxPos.length ∧ rec.vtxPos.length ≤ rec.nLastActiveChainIndex then
      .error .assertion
    else .ok (some rec)

/-- `CNameDB::WriteName`. -/
def NameState.writeName (s : NameState) (name : NameVal) (rec : NameRecord) : NameState :=
  { s with names := Function.update s.names name (some rec) }

/-- `CNameDB::EraseName`. -/
def NameState.eraseName (s : NameState) (name : NameVal) : NameState :=
  { s with names := Function.update s.names name none }

@[simp] theorem NameState.writeName_names (s : NameState) (name : NameVal) (rec : NameRecord) :
    (s.writeName name rec).names = Function.update s.names name (some rec) := rfl

@[simp] theorem NameState.writeName_addresses (s : NameState) (name : NameVal)
    (rec : NameRecord) : (s.writeName name rec).addresses = s.addresses := rfl

@[simp] theorem NameState.writeName_blockFiles (s : NameState) (name : NameVal)
    (rec : NameRecord) : (s.writeName name rec).blockFiles = s.blockFiles := rfl

@[simp] theorem NameState.eraseName_names (s : NameState) (name : NameVal) :
    (s.eraseName name).names = Function.update s.names name none := rfl

@[simp] theorem NameState.eraseName_addresses (s : NameState) (name : NameVal) :
    (s.eraseName name).addresses = s.addresses := rfl

@[simp] theorem NameState.eraseName_blockFiles (s : NameState) (name : NameVal) :
    (s.eraseName name).blockFiles = s.blockFiles := rfl

/-- `GetTransaction(txPos)` followed by `DecodeNameTx`: `none` when either fails. -/
def decodeAt (s : NameState) (txPos : DiskTxPos) :
    Except HookFault (Option NameTxInfo) :=
  match s.blockFiles txPos with
  | none => .ok none
  | some tx => (decodeNameTx tx).mapError .scriptNum

/-- Two's-complement wrap of an `int` product. `nRentalDays * 175` is computed in `int`
and overflows (undefined behaviour) past `12271335` days; the model wraps, as the
compiled code does. -/
def wrapInt32 (x : Int) : Int := (x + 2 ^ 31) % 2 ^ 32 - 2 ^ 31

/-- The rental-days sum of `CalculateExpiresAt` over the entries from `i` on, in blocks
(`175` a day); `none` when a transaction cannot be read or decoded. -/
def rentalBlocks (s : NameState) : List NameIndex → Except HookFault (Option Int)
  | [] => .ok (some 0)
  | entry :: rest => do
    let some nti ← decodeAt s entry.txPos | return none
    let some restSum ← rentalBlocks s rest | return none
    return some (wrapInt32 (nti.info.nRentalDays * 175) + restSum)

/-- `CalculateExpiresAt`: a deleted name expires at `0`; otherwise the rental days of the
last active chain, from the height of its first entry, capped at `INT_MAX`. The read of
`vtxPos[nLastActiveChainIndex]` has no bounds check in the source; out of range it is
undefined behaviour, and the model reads the height as `0`. -/
def calculateExpiresAt (s : NameState) (rec : NameRecord) :
    Except HookFault (Option NameRecord) := do
  if rec.deleted then return some { rec with nExpiresAt := 0 }
  let some sum ← rentalBlocks s (rec.vtxPos.drop rec.nLastActiveChainIndex) | return none
  let start := (rec.vtxPos[rec.nLastActiveChainIndex]?.map (·.nHeight)).getD 0
  let total := sum + start
  return some { rec with nExpiresAt := if total > 2147483647 then 2147483647 else total }

/-- Whether `CalculateExpiresAt` reads inside the history. -/
def expiresAtReadInBounds (rec : NameRecord) : Prop :=
  rec.deleted = true ∨ rec.nLastActiveChainIndex < rec.vtxPos.length

/-- `NameActive(dbName, name, height)`. -/
def nameActive (s : NameState) (name : NameVal) (height : Int) : Except HookFault Bool := do
  let some rec ← readName s name | return false
  if rec.deleted then return false
  return decide (height ≤ rec.nExpiresAt)

/-! ### The address index -/

/-- `CNameAddressDB::WriteSingleName`: fails when the name is already listed. -/
def NameState.writeSingleName (s : NameState) (address : String) (name : NameVal) :
    Option NameState :=
  if name ∈ s.addresses address then none
  else
    let names := insert name (s.addresses address)
    some { s with addresses := Function.update s.addresses address names }

/-- `CNameAddressDB::EraseSingleName`: fails when the name is not listed. -/
def NameState.eraseSingleName (s : NameState) (address : String) (name : NameVal) :
    Option NameState :=
  if name ∈ s.addresses address then
    let names := (s.addresses address).erase name
    some { s with addresses := Function.update s.addresses address names }
  else none

/-- One `ret = ret && step` of `MoveName`: the step runs only while `ret` holds, and a step
that fails has changed nothing. -/
def andThenStep (step : NameState → Option NameState) : Bool × NameState → Bool × NameState
  | (true, s) =>
    match step s with
    | some s' => (true, s')
    | none => (false, s)
  | (false, s) => (false, s)

/-- `CNameAddressDB::MoveName`: the success flag and the database after the steps that
ran. A failed erase skips the write; a failed write keeps the erase. -/
def NameState.moveName (s : NameState) (oldAddress newAddress : String) (name : NameVal) :
    Bool × NameState :=
  if newAddress = oldAddress then (true, s)
  else
    let afterErase :=
      if oldAddress ≠ "" then andThenStep (·.eraseSingleName oldAddress name) (true, s)
      else (true, s)
    if newAddress ≠ "" then andThenStep (·.writeSingleName newAddress name) afterErase
    else afterErase

/-- Two states that differ in the address database at most. -/
def NameState.AddressesOnly (s s' : NameState) : Prop :=
  s'.names = s.names ∧ s'.pending = s.pending ∧ s'.blockFiles = s.blockFiles ∧
    s'.txIndex = s.txIndex

theorem NameState.AddressesOnly.refl (s : NameState) : s.AddressesOnly s :=
  ⟨rfl, rfl, rfl, rfl⟩

theorem NameState.AddressesOnly.trans {s₁ s₂ s₃ : NameState} (first : s₁.AddressesOnly s₂)
    (second : s₂.AddressesOnly s₃) : s₁.AddressesOnly s₃ :=
  ⟨second.1.trans first.1, second.2.1.trans first.2.1, second.2.2.1.trans first.2.2.1,
    second.2.2.2.trans first.2.2.2⟩

theorem NameState.writeSingleName_addressesOnly {s s' : NameState} {address : String}
    {name : NameVal} (written : s.writeSingleName address name = some s') :
    s.AddressesOnly s' := by
  unfold NameState.writeSingleName at written
  split_ifs at written
  cases written
  exact ⟨rfl, rfl, rfl, rfl⟩

theorem NameState.eraseSingleName_addressesOnly {s s' : NameState} {address : String}
    {name : NameVal} (erased : s.eraseSingleName address name = some s') :
    s.AddressesOnly s' := by
  unfold NameState.eraseSingleName at erased
  split_ifs at erased
  cases erased
  exact ⟨rfl, rfl, rfl, rfl⟩

theorem andThenStep_addressesOnly {step : NameState → Option NameState}
    (stepOnly : ∀ s s', step s = some s' → s.AddressesOnly s') {s : NameState}
    {p : Bool × NameState} (before : s.AddressesOnly p.2) :
    s.AddressesOnly (andThenStep step p).2 := by
  obtain ⟨ret, s₁⟩ := p
  cases ret with
  | false => exact before
  | true =>
    simp only [andThenStep]
    split
    · rename_i s' stepped
      exact before.trans (stepOnly s₁ s' stepped)
    · exact before

/-- The address moves touch the address database only. -/
theorem NameState.moveName_addressesOnly (s : NameState) (oldAddress newAddress : String)
    (name : NameVal) : s.AddressesOnly (s.moveName oldAddress newAddress name).2 := by
  have erase : s.AddressesOnly (if oldAddress ≠ "" then
      andThenStep (·.eraseSingleName oldAddress name) (true, s) else (true, s)).2 := by
    split_ifs
    · exact andThenStep_addressesOnly (fun _ _ => NameState.eraseSingleName_addressesOnly)
        (NameState.AddressesOnly.refl s)
    · exact NameState.AddressesOnly.refl s
  unfold NameState.moveName
  by_cases same : newAddress = oldAddress
  · rw [if_pos same]
    exact NameState.AddressesOnly.refl s
  · rw [if_neg same]
    dsimp only
    by_cases written : newAddress ≠ ""
    · rw [if_pos written]
      exact andThenStep_addressesOnly (fun _ _ => NameState.writeSingleName_addressesOnly) erase
    · rw [if_neg written]
      exact erase

@[simp] theorem NameState.moveName_names (s : NameState) (oldAddress newAddress : String)
    (name : NameVal) : (s.moveName oldAddress newAddress name).2.names = s.names :=
  (s.moveName_addressesOnly oldAddress newAddress name).1

@[simp] theorem NameState.moveName_blockFiles (s : NameState) (oldAddress newAddress : String)
    (name : NameVal) : (s.moveName oldAddress newAddress name).2.blockFiles = s.blockFiles :=
  (s.moveName_addressesOnly oldAddress newAddress name).2.2.1

end MFCoin.Names
