/-
Module: MFCoin.Net.CompactBlock
Purpose: Compact block reconstruction (src/src/blockencodings.cpp): the compact block a
  sender builds from a block, `PartiallyDownloadedBlock::InitData` with its checks, the
  prefilled loop, the short id map with its bucket and collision checks, the scans of the
  mempool and of the extra transactions with their early exits, `IsTxAvailable` and
  `FillBlock`. Every slot the scans fill holds the block's transaction at that position, so
  `FillBlock` rebuilds the block from the transactions at the empty slots; but positions
  are `uint16_t` values in the map, so in a block of more than 65536 transactions the
  transaction at 65536 is given the coinbase's slot.
Trusted boundary: SipHash under the message's keys is a function from hashes to numbers;
  the buckets of the short id map are a function from keys to buckets; `CheckBlock` is a
  verdict on the rebuilt block.
Main exports: ReadStatus, CBlock, CBlockHeaderAndShortTxIDs.ofBlock, Receiver,
  PartiallyDownloadedBlock, initData, fillBlock, missingTxs, blockBaseSize
-/
import MFCoin.Net.BlockEncodings
import MFCoin.Primitives.TxSerialize
import Mathlib.Data.List.AList

namespace MFCoin.Net

open ByteCodec MFCoin.Serialize

/-- `ReadStatus`. -/
inductive ReadStatus
  | ok
  | invalid
  | failed
  | checkblockFailed
deriving DecidableEq, Repr

/-- `CBlock` as compact blocks see it: the header, the transactions and the block
signature. -/
structure CBlock (β α : Type) where
  header : β
  vtx : List α
  vchBlockSig : List UInt8
deriving DecidableEq

/-- `MAX_BLOCK_BASE_SIZE`. -/
def MAX_BLOCK_BASE_SIZE : Nat := 2000000

/-- `MIN_TRANSACTION_BASE_SIZE`: the size of `CTransaction()` without witness, whose
version is `CURRENT_VERSION`; its time, `GetAdjustedTime()`, does not change the size. -/
def MIN_TRANSACTION_BASE_SIZE : Nat :=
  (serializeTransaction ⟨true, false⟩ ⟨2, 0, [], [], 0⟩).length

example : MIN_TRANSACTION_BASE_SIZE = 14 := by decide

/-- The size `CheckBlock` bounds by `MAX_BLOCK_BASE_SIZE`: the block serialized without
witnesses. -/
def blockBaseSize {β : Type} (encodeHeader : β → List UInt8) (block : CBlock β Transaction) : Nat :=
  (encodeHeader block.header ++
    writeVector (fun tx => serializeTransaction ⟨true, false⟩ (Transaction.toMutable tx)) block.vtx ++
    writeByteVector block.vchBlockSig).length

section Reconstruction

variable {β α : Type}

/-! ### The sender -/

/-- `CBlockHeaderAndShortTxIDs::GetShortID`: SipHash of the hash under the keys the header
and the nonce give, cut to its 48 low bits. -/
def getShortID (sipHash : Nat → Nat) (txhash : Nat) : Nat := sipHash txhash &&& 0xffffffffffff

/-- The short ids of transactions, of `txHash`: `GetHash`, or `GetWitnessHash` when
`fUseWTXID` is set. -/
def shortIdsOf (sipHash : Nat → Nat) (txHash : α → Nat) (txs : List α) : List Nat :=
  txs.map fun tx => getShortID sipHash (txHash tx)

/-- `CBlockHeaderAndShortTxIDs(block, fUseWTXID)`: the coinbase prefilled at index 0 and a
short id for every other transaction. The constructor is only called on blocks with
transactions. -/
def CBlockHeaderAndShortTxIDs.ofBlock (sipHash : Nat → Nat) (txHash : α → Nat) (nonce : UInt64)
    (block : CBlock β α) : CBlockHeaderAndShortTxIDs β α :=
  { header := block.header, nonce := nonce, vchBlockSig := block.vchBlockSig,
    shorttxids := shortIdsOf sipHash txHash block.vtx.tail,
    prefilledtxn := block.vtx.head?.toList.map fun coinbase => ⟨0, coinbase⟩ }

/-! ### The receiver -/

/-- What `InitData` reads besides the message: the tests it applies, the buckets of its
short id map, and the mempool. -/
structure Receiver (β α : Type) where
  /-- `CBlockHeader::IsNull`: `nBits == 0`. -/
  headerIsNull : β → Bool
  /-- `CTransaction::IsNull`: neither inputs nor outputs. -/
  isNull : α → Bool
  getWitnessHash : α → Nat
  /-- The bucket of a key in the `unordered_map` of short ids. -/
  bucket : Nat → Nat
  /-- `pool->vTxHashes`: the witness hash and the transaction of every mempool entry. -/
  vTxHashes : List (Nat × α)

/-- `PartiallyDownloadedBlock` after `InitData`: the header, the block signature, a slot for
every transaction, and `mempool_count`. -/
structure PartiallyDownloadedBlock (β α : Type) where
  header : β
  vchBlockSig : List UInt8
  txn_available : List (Option α)
  mempool_count : Nat

/-- The map from short ids to positions. -/
abbrev ShortIdMap := AList fun _ : Nat => UInt16

/-- `bucket_size(bucket(key))`: the keys of the map in the bucket of `key`. -/
def bucketSize (bucket : Nat → Nat) (map : ShortIdMap) (key : Nat) : Nat :=
  (map.keys.filter fun k => bucket k == bucket key).length

/-- The prefilled loop of `InitData`. `lastprefilledindex` is an `int32_t` that starts at
-1 and grows by each differential index plus one; `none` is `READ_STATUS_INVALID`. -/
def placePrefilled (isNull : α → Bool) (nShortIds : Nat) :
    Int → Nat → List (PrefilledTransaction α) → List (Option α) → Option (List (Option α))
  | _, _, [], txn => some txn
  | lastprefilledindex, i, prefilled :: rest, txn =>
    if isNull prefilled.tx then none
    else
      let lastprefilledindex := lastprefilledindex + prefilled.index.toNat + 1
      if lastprefilledindex > 65535 then none
      -- a prefilled transaction past the short ids and the prefilled ones before it
      else if lastprefilledindex.toNat > nShortIds + i then none
      else placePrefilled isNull nShortIds lastprefilledindex (i + 1) rest
        (txn.set lastprefilledindex.toNat (some prefilled.tx))

/-- `while (txn_available[i + index_offset]) index_offset++;` with its `uint16_t` offset.
After 65536 steps the offset is back where it started and the loop never ends; `none` is
that, or a read past the slots. -/
def skipAvailable (txn : List (Option α)) (i : Nat) : UInt16 → Nat → Option UInt16
  | _, 0 => none
  | index_offset, fuel + 1 =>
    match txn[i + index_offset.toNat]? with
    | some (some _) => skipAvailable txn i (index_offset + 1) fuel
    | some none => some index_offset
    | none => none

/-- The short id loop of `InitData`: each short id is mapped to the next free slot,
`i + index_offset` stored as a `uint16_t`; a bucket of more than 12 keys is
`READ_STATUS_FAILED`. `none` is a walk that never ends. -/
def indexShortIds (bucket : Nat → Nat) (txn : List (Option α)) :
    Nat → UInt16 → List Nat → ShortIdMap → Option (Except ReadStatus ShortIdMap)
  | _, _, [], map => some (.ok map)
  | i, index_offset, shortid :: rest, map =>
    match skipAvailable txn i index_offset 65536 with
    | none => none
    | some index_offset =>
      let map := map.insert shortid (UInt16.ofNat (i + index_offset.toNat))
      if bucketSize bucket map shortid > 12 then some (.error .failed)
      else indexShortIds bucket txn (i + 1) index_offset rest map

/-- The slots, `have_txn` and `mempool_count`, which both scans update. -/
structure ScanState (α : Type) where
  txn_available : List (Option α)
  have_txn : List Bool
  mempool_count : Nat

/-- One candidate of a scan. A candidate whose short id is in the map fills its slot if no
candidate did before; if one did, the slot is emptied again when `conflicts` tells the
transaction there from the candidate. `mempool_count` is only decreased for a slot it was
increased for, so it never goes below zero. -/
def scanCandidate (sipHash : Nat → Nat) (map : ShortIdMap) (conflicts : α → α → Bool)
    (st : ScanState α) (candidate : Nat × α) : ScanState α :=
  match map.lookup (getShortID sipHash candidate.1) with
  | none => st
  | some pos =>
    if !st.have_txn.getD pos.toNat false then
      ⟨st.txn_available.set pos.toNat (some candidate.2), st.have_txn.set pos.toNat true,
        st.mempool_count + 1⟩
    else
      match st.txn_available[pos.toNat]? with
      | some (some present) =>
        if conflicts present candidate.2 then
          ⟨st.txn_available.set pos.toNat none, st.have_txn, st.mempool_count - 1⟩
        else st
      | _ => st

/-- A scan, with its early exit once as many slots were filled as the map has keys. -/
def scan (sipHash : Nat → Nat) (map : ShortIdMap) (conflicts : α → α → Bool) :
    List (Nat × α) → ScanState α → ScanState α
  | [], st => st
  | candidate :: rest, st =>
    let st := scanCandidate sipHash map conflicts st candidate
    if st.mempool_count = map.keys.length then st else scan sipHash map conflicts rest st

/-- The mempool scan: a second mempool transaction with the short id always empties the
slot. -/
def scanMempool (recv : Receiver β α) (sipHash : Nat → Nat) (map : ShortIdMap) :
    ScanState α → ScanState α :=
  scan sipHash map (fun _ _ => true) recv.vTxHashes

/-- The scan of `extra_txn`: a second transaction with the short id empties the slot only
when its witness hash differs, so that one transaction in both pools is no conflict. -/
def scanExtra (recv : Receiver β α) (sipHash : Nat → Nat) (map : ShortIdMap)
    (extra_txn : List (Nat × α)) : ScanState α → ScanState α :=
  scan sipHash map (fun present tx => recv.getWitnessHash present != recv.getWitnessHash tx) extra_txn

/-- `PartiallyDownloadedBlock::InitData` on a fresh object, with SipHash under the keys of
the message. `none` is a call that does not return; an error is the status returned other
than `READ_STATUS_OK`, after which the object is not used. -/
def initData (recv : Receiver β α) (sipHash : Nat → Nat) (cmpctblock : CBlockHeaderAndShortTxIDs β α)
    (extra_txn : List (Nat × α)) : Option (Except ReadStatus (PartiallyDownloadedBlock β α)) :=
  if recv.headerIsNull cmpctblock.header ||
      (cmpctblock.shorttxids.isEmpty && cmpctblock.prefilledtxn.isEmpty) then some (.error .invalid)
  else if cmpctblock.shorttxids.length + cmpctblock.prefilledtxn.length >
      MAX_BLOCK_BASE_SIZE / MIN_TRANSACTION_BASE_SIZE then some (.error .invalid)
  else
    let count := cmpctblock.shorttxids.length + cmpctblock.prefilledtxn.length
    match placePrefilled recv.isNull cmpctblock.shorttxids.length (-1) 0 cmpctblock.prefilledtxn
        (List.replicate count none) with
    | none => some (.error .invalid)
    | some txn =>
      match indexShortIds recv.bucket txn 0 0 cmpctblock.shorttxids ∅ with
      | none => none
      | some (.error status) => some (.error status)
      | some (.ok map) =>
        -- two short ids that are equal: `Short ID collision`
        if map.keys.length ≠ cmpctblock.shorttxids.length then some (.error .failed)
        else
          let st := scanExtra recv sipHash map extra_txn
            (scanMempool recv sipHash map ⟨txn, List.replicate count false, 0⟩)
          some (.ok ⟨cmpctblock.header, cmpctblock.vchBlockSig, st.txn_available, st.mempool_count⟩)

/-- `PartiallyDownloadedBlock::IsTxAvailable`. -/
def PartiallyDownloadedBlock.isTxAvailable (partialBlock : PartiallyDownloadedBlock β α) (index : Nat) :
    Bool :=
  match partialBlock.txn_available[index]? with
  | some (some _) => true
  | _ => false

/-- The transactions of `vtx` at the positions where `IsTxAvailable` is false, in order:
what a peer sends back for the missing ones. -/
def missingTxs (partialBlock : PartiallyDownloadedBlock β α) (vtx : List α) : List α :=
  vtx.zipIdx.filterMap fun (tx, index) => if partialBlock.isTxAvailable index then none else some tx

/-- The loop of `FillBlock`: an empty slot takes the next missing transaction, and `none`
is `READ_STATUS_INVALID` when there is none left. Returns the transactions and the missing
ones not used. -/
def fillSlots : List (Option α) → List α → Option (List α × List α)
  | [], vtx_missing => some ([], vtx_missing)
  | some tx :: txn, vtx_missing => (fillSlots txn vtx_missing).map fun (vtx, rest) => (tx :: vtx, rest)
  | none :: _, [] => none
  | none :: txn, tx :: vtx_missing =>
    (fillSlots txn vtx_missing).map fun (vtx, rest) => (tx :: vtx, rest)

/-- `PartiallyDownloadedBlock::FillBlock`, with `CheckBlock`'s verdict on the block and
whether its failure may be a corruption (`CorruptionPossible`). Returns the status and the
block, once its transactions are all in place. -/
def fillBlock (checkBlock corruptionPossible : CBlock β α → Bool)
    (partialBlock : PartiallyDownloadedBlock β α) (vtx_missing : List α) :
    ReadStatus × Option (CBlock β α) :=
  match fillSlots partialBlock.txn_available vtx_missing with
  | none => (.invalid, none)
  | some (vtx, rest) =>
    let block : CBlock β α := ⟨partialBlock.header, vtx, partialBlock.vchBlockSig⟩
    if !rest.isEmpty then (.invalid, some block)
    else if checkBlock block then (.ok, some block)
    -- a possible short id collision
    else if corruptionPossible block then (.failed, some block)
    else (.checkblockFailed, some block)

/-! ### Slots that agree with the block -/

/-- Every slot is empty or holds the block's transaction at its position. -/
def SlotsAgree (txn : List (Option α)) (vtx : List α) : Prop :=
  List.Forall₂ (fun slot tx => slot = none ∨ slot = some tx) txn vtx

/-- Setting a slot to what agrees with the transaction at its position keeps the slots
agreeing. -/
theorem slotsAgree_set {txn : List (Option α)} {vtx : List α} (agree : SlotsAgree txn vtx)
    {pos : Nat} {slot : Option α} (fits : ∀ tx, vtx[pos]? = some tx → slot = none ∨ slot = some tx) :
    SlotsAgree (txn.set pos slot) vtx := by
  induction agree generalizing pos with
  | nil => exact List.Forall₂.nil
  | @cons s t txn vtx here _ ih =>
    cases pos with
    | zero => exact List.Forall₂.cons (fits t rfl) ‹_›
    | succ pos => exact List.Forall₂.cons here (ih fits)

section Scans

variable {sipHash : Nat → Nat} {map : ShortIdMap} {conflicts : α → α → Bool} {vtx : List α}

/-- A candidate matches the block when the slot its short id is mapped to is the position
of that very transaction in the block. -/
def Matches (sipHash : Nat → Nat) (map : ShortIdMap) (vtx : List α) (candidate : Nat × α) : Prop :=
  ∀ pos, map.lookup (getShortID sipHash candidate.1) = some pos → vtx[pos.toNat]? = some candidate.2

/-- One candidate that matches the block keeps the slots agreeing: it fills its slot with
the transaction at that position, or empties the slot. -/
theorem scanCandidate_agree {st : ScanState α} {candidate : Nat × α}
    (agree : SlotsAgree st.txn_available vtx) (matching : Matches sipHash map vtx candidate) :
    SlotsAgree (scanCandidate sipHash map conflicts st candidate).txn_available vtx := by
  unfold scanCandidate
  split
  · exact agree
  · rename_i pos found
    split
    · exact slotsAgree_set agree fun tx there => by
        rw [matching pos found, Option.some.injEq] at there
        exact Or.inr (congrArg some there)
    · split
      · split
        · exact slotsAgree_set agree fun _ _ => Or.inl rfl
        · exact agree
      · exact agree

/-- A scan of candidates that all match the block keeps the slots agreeing, wherever its
early exit stops it. -/
theorem scan_agree : ∀ (candidates : List (Nat × α)) {st : ScanState α},
    SlotsAgree st.txn_available vtx → (∀ c ∈ candidates, Matches sipHash map vtx c) →
      SlotsAgree (scan sipHash map conflicts candidates st).txn_available vtx
  | [], _, agree, _ => agree
  | candidate :: rest, _, agree, matching => by
    have first : SlotsAgree (scanCandidate sipHash map conflicts _ candidate).txn_available vtx :=
      scanCandidate_agree agree (matching candidate List.mem_cons_self)
    unfold scan
    dsimp only
    split
    · exact first
    · exact scan_agree rest first fun c mem => matching c (List.mem_cons_of_mem _ mem)

end Scans

/-! ### Filling the block -/

theorem slotsAgree_replicate : ∀ vtx : List α, SlotsAgree (List.replicate vtx.length none) vtx
  | [] => List.Forall₂.nil
  | _ :: vtx => List.Forall₂.cons (Or.inl rfl) (slotsAgree_replicate vtx)

/-- `missingTxs` pairs each slot with the transaction at its position. -/
theorem missingTxs_eq_zip (partialBlock : PartiallyDownloadedBlock β α) :
    ∀ (pre txn : List (Option α)) (vtx : List α), partialBlock.txn_available = pre ++ txn →
      txn.length = vtx.length →
      (vtx.zipIdx pre.length).filterMap
          (fun (tx, index) => if partialBlock.isTxAvailable index then none else some tx) =
        (txn.zip vtx).filterMap fun (slot, tx) => if slot.isSome then none else some tx
  | _, [], [], _, _ => rfl
  | pre, slot :: txn, tx :: vtx, slots, length => by
    have here : partialBlock.isTxAvailable pre.length = slot.isSome := by
      simp only [PartiallyDownloadedBlock.isTxAvailable, slots, List.getElem?_append_right (Nat.le_refl _),
        Nat.sub_self, List.getElem?_cons_zero]
      cases slot <;> rfl
    have rest := missingTxs_eq_zip partialBlock (pre ++ [slot]) txn vtx (by simp [slots])
      (by simpa using length)
    rw [List.length_append, List.length_singleton] at rest
    simp only [List.zipIdx_cons, List.filterMap_cons, here, List.zip_cons_cons, rest]

/-- From agreeing slots and the transactions at the empty ones, `FillBlock`'s loop rebuilds
the block's transactions and uses every missing one. -/
theorem fillSlots_agree : ∀ {txn : List (Option α)} {vtx : List α}, SlotsAgree txn vtx →
    fillSlots txn ((txn.zip vtx).filterMap fun (slot, tx) => if slot.isSome then none else some tx) =
      some (vtx, [])
  | _, _, .nil => rfl
  | _, _, .cons (a := slot) (b := tx) here rest => by
    rcases here with rfl | rfl
    · simp [fillSlots, fillSlots_agree rest]
    · simp [fillSlots, fillSlots_agree rest]

/-! ### `InitData` on the compact block of a block -/

/-- The map the short id loop builds when every slot but the coinbase's is free: each short
id at its position from `start` on, cut to 16 bits. -/
def positionsFrom : Nat → List Nat → ShortIdMap → ShortIdMap
  | _, [], map => map
  | start, shortid :: rest, map =>
    positionsFrom (start + 1) rest (map.insert shortid (UInt16.ofNat start))

theorem lookup_positionsFrom_of_not_mem {k : Nat} :
    ∀ {ids : List Nat} {start : Nat} {map : ShortIdMap}, k ∉ ids →
      (positionsFrom start ids map).lookup k = map.lookup k
  | [], _, _, _ => rfl
  | shortid :: ids, start, map, absent => by
    rw [List.mem_cons, not_or] at absent
    rw [positionsFrom, lookup_positionsFrom_of_not_mem absent.2,
      AList.lookup_insert_ne absent.1]

/-- Each short id is mapped to its position, cut to 16 bits. -/
theorem lookup_positionsFrom {k : Nat} :
    ∀ {ids : List Nat} {start j : Nat} {map : ShortIdMap}, ids.Nodup → ids[j]? = some k →
      (positionsFrom start ids map).lookup k = some (UInt16.ofNat (start + j))
  | [], _, _, _, _, located => by simp at located
  | shortid :: ids, start, 0, map, distinct, located => by
    rw [List.getElem?_cons_zero, Option.some.injEq] at located
    subst located
    rw [positionsFrom, lookup_positionsFrom_of_not_mem (List.nodup_cons.mp distinct).1,
      AList.lookup_insert, Nat.add_zero]
  | shortid :: ids, start, j + 1, map, distinct, located => by
    rw [List.getElem?_cons_succ] at located
    rw [positionsFrom, lookup_positionsFrom (List.nodup_cons.mp distinct).2 located]
    congr 2
    omega

/-- Every key of the map is a short id, at its position. -/
theorem lookup_positionsFrom_eq_some {ids : List Nat} (distinct : ids.Nodup) {start k : Nat}
    {pos : UInt16} (found : (positionsFrom start ids ∅).lookup k = some pos) :
    ∃ j, ids[j]? = some k ∧ pos = UInt16.ofNat (start + j) := by
  by_cases mem : k ∈ ids
  · obtain ⟨j, located⟩ := List.mem_iff_getElem?.mp mem
    rw [lookup_positionsFrom distinct located, Option.some.injEq] at found
    exact ⟨j, located, found.symm⟩
  · rw [lookup_positionsFrom_of_not_mem mem, AList.lookup_empty] at found
    cases found

/-- Distinct short ids give the map as many keys. -/
theorem length_keys_positionsFrom :
    ∀ {ids : List Nat} {start : Nat} {map : ShortIdMap}, ids.Nodup → (∀ k ∈ ids, k ∉ map) →
      (positionsFrom start ids map).keys.length = map.keys.length + ids.length
  | [], _, _, _, _ => rfl
  | shortid :: ids, start, map, distinct, fresh => by
    rw [List.nodup_cons] at distinct
    have absent : shortid ∉ map.keys := AList.mem_keys.not.mp (fresh shortid List.mem_cons_self)
    have others : ∀ k ∈ ids, k ∉ map.insert shortid (UInt16.ofNat start) := by
      intro k mem
      rw [AList.mem_insert, not_or]
      exact ⟨fun same => distinct.1 (same ▸ mem), fresh k (List.mem_cons_of_mem _ mem)⟩
    rw [positionsFrom, length_keys_positionsFrom distinct.2 others, AList.keys_insert,
      List.erase_of_not_mem absent, List.length_cons, List.length_cons]
    omega

/-- The keys of a map within a list of short ids whose buckets hold at most 12 of them
each: the map's buckets hold at most 12 keys. -/
theorem bucketSize_le {bucket : Nat → Nat} {ids : List Nat}
    (spread : ∀ k ∈ ids, (ids.filter fun k' => bucket k' == bucket k).length ≤ 12) {map : ShortIdMap}
    (within : map.keys ⊆ ids) {key : Nat} (mem : key ∈ ids) : bucketSize bucket map key ≤ 12 := by
  have sub : (map.keys.filter fun k => bucket k == bucket key) ⊆
      ids.filter fun k => bucket k == bucket key := by
    intro k inKeys
    rw [List.mem_filter] at inKeys ⊢
    exact ⟨within inKeys.1, inKeys.2⟩
  calc bucketSize bucket map key ≤ (ids.filter fun k => bucket k == bucket key).length :=
        ((AList.keys_nodup map).filter _).length_le_of_subset sub
    _ ≤ 12 := spread key mem

section FromBlock

variable {coinbase : α}

/-- The coinbase, prefilled at differential index 0, goes to slot 0. -/
theorem placePrefilled_coinbase {isNull : α → Bool} (real : isNull coinbase = false) (n : Nat) :
    placePrefilled isNull n (-1) 0 [⟨0, coinbase⟩] (List.replicate (n + 1) none) =
      some (some coinbase :: List.replicate n none) := by
  simp [placePrefilled, real, List.replicate_succ]

/-- With only the coinbase's slot taken, the walk stops at slot `i + 1`: after the coinbase
the offset is 1. -/
theorem skipAvailable_coinbase {n i : Nat} (inside : i < n) {index_offset : UInt16}
    (start : index_offset = 1 ∨ (i = 0 ∧ index_offset = 0)) :
    skipAvailable (some coinbase :: List.replicate n none) i index_offset 65536 = some 1 := by
  have free : (some coinbase :: List.replicate n none)[i + 1]? = some none := by
    rw [List.getElem?_cons_succ, List.getElem?_replicate, if_pos inside]
  rcases start with rfl | ⟨rfl, rfl⟩
  · rw [skipAvailable, UInt16.toNat_one, free]
  · rw [skipAvailable, UInt16.toNat_zero, Nat.add_zero, List.getElem?_cons_zero]
    simp only [UInt16.zero_add]
    rw [skipAvailable, UInt16.toNat_one, Nat.zero_add, ← Nat.zero_add 1, free]

/-- The short id loop over short ids whose buckets hold at most 12 each, with only the
coinbase's slot taken, maps each short id to its position. -/
theorem indexShortIds_coinbase {bucket : Nat → Nat} {allIds : List Nat}
    (spread : ∀ k ∈ allIds, (allIds.filter fun k' => bucket k' == bucket k).length ≤ 12) {n : Nat} :
    ∀ (ids : List Nat) (i : Nat) (index_offset : UInt16) (map : ShortIdMap),
      i + ids.length ≤ n → (index_offset = 1 ∨ (i = 0 ∧ index_offset = 0)) →
      map.keys ⊆ allIds → ids ⊆ allIds →
      indexShortIds bucket (some coinbase :: List.replicate n none) i index_offset ids map =
        some (.ok (positionsFrom (i + 1) ids map))
  | [], _, _, _, _, _, _, _ => rfl
  | shortid :: ids, i, index_offset, map, inside, start, within, mem => by
    rw [List.length_cons] at inside
    have walk : skipAvailable (some coinbase :: List.replicate n none) i index_offset 65536 = some 1 :=
      skipAvailable_coinbase (show i < n by omega) start
    have keys : (map.insert shortid (UInt16.ofNat (i + 1))).keys ⊆ allIds := by
      intro k inKeys
      rw [AList.keys_insert, List.mem_cons] at inKeys
      rcases inKeys with rfl | inKeys
      · exact mem List.mem_cons_self
      · exact within (List.mem_of_mem_erase inKeys)
    have fits := bucketSize_le spread keys (mem List.mem_cons_self)
    rw [indexShortIds, walk]
    simp only [UInt16.toNat_one]
    rw [if_neg (by omega), indexShortIds_coinbase spread ids (i + 1) 1 _ (by omega) (Or.inl rfl) keys
      (fun k inIds => mem (List.mem_cons_of_mem _ inIds))]
    rfl

/-- The slots, `have_txn` and `mempool_count` after both scans of `InitData` on the compact
block of a block with `coinbase` and then `rest`. -/
def scannedFromBlock (recv : Receiver β α) (sipHash : Nat → Nat) (txHash : α → Nat) (coinbase : α)
    (rest : List α) (extra_txn : List (Nat × α)) : ScanState α :=
  let map := positionsFrom 1 (shortIdsOf sipHash txHash rest) ∅
  scanExtra recv sipHash map extra_txn (scanMempool recv sipHash map
    ⟨some coinbase :: List.replicate rest.length none, List.replicate (rest.length + 1) false, 0⟩)

/-- `InitData` on the compact block of a block whose header and coinbase are not null, whose
short ids are distinct and spread over the buckets, returns `READ_STATUS_OK` with the slots
of the two scans: every short id is mapped to its position, cut to 16 bits. -/
theorem initData_ofBlock (recv : Receiver β α) (sipHash : Nat → Nat) (txHash : α → Nat)
    (nonce : UInt64) {block : CBlock β α} {rest : List α} (vtx : block.vtx = coinbase :: rest)
    (headerNotNull : recv.headerIsNull block.header = false) (real : recv.isNull coinbase = false)
    (count : rest.length + 1 ≤ MAX_BLOCK_BASE_SIZE / MIN_TRANSACTION_BASE_SIZE)
    (distinct : (shortIdsOf sipHash txHash rest).Nodup)
    (spread : ∀ k ∈ shortIdsOf sipHash txHash rest,
      ((shortIdsOf sipHash txHash rest).filter fun k' => recv.bucket k' == recv.bucket k).length ≤ 12)
    (extra_txn : List (Nat × α)) :
    initData recv sipHash (CBlockHeaderAndShortTxIDs.ofBlock sipHash txHash nonce block) extra_txn =
      some (.ok ⟨block.header, block.vchBlockSig,
        (scannedFromBlock recv sipHash txHash coinbase rest extra_txn).txn_available,
        (scannedFromBlock recv sipHash txHash coinbase rest extra_txn).mempool_count⟩) := by
  have length : (shortIdsOf sipHash txHash rest).length = rest.length := List.length_map _
  have indexed : indexShortIds recv.bucket (some coinbase :: List.replicate rest.length none) 0 0
      (shortIdsOf sipHash txHash rest) ∅ = some (.ok (positionsFrom 1 (shortIdsOf sipHash txHash rest) ∅)) :=
    indexShortIds_coinbase spread _ 0 0 ∅ (by omega) (Or.inr ⟨rfl, rfl⟩) (by simp [AList.keys_empty])
      (List.Subset.refl _)
  have keys : (positionsFrom 1 (shortIdsOf sipHash txHash rest) ∅).keys.length =
      (shortIdsOf sipHash txHash rest).length := by
    rw [length_keys_positionsFrom distinct (fun k _ => AList.notMem_empty k), AList.keys_empty,
      List.length_nil, Nat.zero_add]
  simp only [initData, CBlockHeaderAndShortTxIDs.ofBlock, vtx, headerNotNull, List.tail_cons,
    List.head?_cons, Option.toList_some, List.map_cons, List.map_nil, List.isEmpty_cons, Bool.and_false,
    Bool.or_false, Bool.false_eq_true, if_false, List.length_singleton, length]
  rw [if_neg (by omega), placePrefilled_coinbase real]
  dsimp only
  rw [indexed]
  dsimp only
  rw [keys, length, if_neg (not_not.mpr rfl)]
  rfl

/-- In a block of at most 65536 transactions a candidate whose short id is that of a
transaction after the coinbase, and which is that transaction, goes to its position. -/
theorem matches_positionsFrom {sipHash : Nat → Nat} {txHash : α → Nat} {rest : List α}
    (small : rest.length < 65536) (distinct : (shortIdsOf sipHash txHash rest).Nodup)
    {candidate : Nat × α}
    (only : ∀ j : Nat, (shortIdsOf sipHash txHash rest)[j]? = some (getShortID sipHash candidate.1) →
      rest[j]? = some candidate.2) :
    Matches sipHash (positionsFrom 1 (shortIdsOf sipHash txHash rest) ∅) (coinbase :: rest) candidate := by
  intro pos found
  obtain ⟨j, located, rfl⟩ := lookup_positionsFrom_eq_some distinct found
  have inside : j < rest.length := by
    have := (List.getElem?_eq_some_iff.mp located).1
    rwa [shortIdsOf, List.length_map] at this
  have position : (UInt16.ofNat (1 + j)).toNat = j + 1 := by
    rw [UInt16.toNat_ofNat', Nat.mod_eq_of_lt (by omega)]
    omega
  rw [position, List.getElem?_cons_succ]
  exact only j located

/-- In a block of at most 65536 transactions with distinct short ids, when every candidate
whose short id is that of a transaction is that transaction, every slot the scans fill
holds the block's transaction at that position. -/
theorem scannedFromBlock_agree (recv : Receiver β α) {sipHash : Nat → Nat} {txHash : α → Nat}
    {rest : List α} (small : rest.length < 65536) (distinct : (shortIdsOf sipHash txHash rest).Nodup)
    {extra_txn : List (Nat × α)}
    (only : ∀ c ∈ recv.vTxHashes ++ extra_txn, ∀ j : Nat,
      (shortIdsOf sipHash txHash rest)[j]? = some (getShortID sipHash c.1) → rest[j]? = some c.2) :
    SlotsAgree (scannedFromBlock recv sipHash txHash coinbase rest extra_txn).txn_available
      (coinbase :: rest) := by
  have initial : SlotsAgree (some coinbase :: List.replicate rest.length none) (coinbase :: rest) :=
    List.Forall₂.cons (Or.inr rfl) (slotsAgree_replicate rest)
  have mempool : SlotsAgree (scanMempool recv sipHash (positionsFrom 1 (shortIdsOf sipHash txHash rest) ∅)
      ⟨some coinbase :: List.replicate rest.length none, List.replicate (rest.length + 1) false,
        0⟩).txn_available (coinbase :: rest) :=
    scan_agree recv.vTxHashes initial fun c mem => matches_positionsFrom small distinct (only c (List.mem_append_left _ mem))
  exact scan_agree extra_txn mempool
    fun c mem => matches_positionsFrom small distinct (only c (List.mem_append_right _ mem))

/-- `FillBlock` with the block's transactions at the slots `InitData` left empty rebuilds the
block when the filled slots agree with it, and returns `READ_STATUS_OK` when `CheckBlock`
accepts the block. -/
theorem fillBlock_missingTxs {checkBlock corruptionPossible : CBlock β α → Bool}
    {partialBlock : PartiallyDownloadedBlock β α} {block : CBlock β α}
    (header : partialBlock.header = block.header) (sig : partialBlock.vchBlockSig = block.vchBlockSig)
    (agree : SlotsAgree partialBlock.txn_available block.vtx) (valid : checkBlock block = true) :
    fillBlock checkBlock corruptionPossible partialBlock (missingTxs partialBlock block.vtx) =
      (.ok, some block) := by
  have missing := missingTxs_eq_zip partialBlock [] partialBlock.txn_available block.vtx rfl
    agree.length_eq
  rw [List.length_nil] at missing
  rw [fillBlock, missingTxs, missing, fillSlots_agree agree]
  dsimp only
  rw [header, sig, valid]
  rfl

end FromBlock

/-! ### Reconstruction -/

/-- Compact blocks rebuild every block of at most 65536 transactions. The compact block
built from it reads back from its serialization; `InitData` returns `READ_STATUS_OK` when
the header and the coinbase are not null, the short ids are distinct, at most 12 of them
share a bucket of the map, and every mempool or extra transaction whose short id is that of
one of the block's is that transaction; and `FillBlock`, given the block's transactions
where `IsTxAvailable` is false, rebuilds the block and returns `READ_STATUS_OK` when
`CheckBlock` accepts it. -/
theorem compactBlock_reconstructs {encodeHeader : β → List UInt8} {decodeHeader : Decoder β}
    {goodHeader : β → Prop} {encodeTx : α → List UInt8} {decodeTx : Decoder α} {goodTx : α → Prop}
    (headerRoundTrip : RoundTrip encodeHeader decodeHeader goodHeader)
    (txRoundTrip : RoundTrip encodeTx decodeTx goodTx)
    (recv : Receiver β α) (sipHash : Nat → Nat) (txHash : α → Nat) (nonce : UInt64)
    (checkBlock corruptionPossible : CBlock β α → Bool) {block : CBlock β α} {coinbase : α}
    {rest : List α} (vtx : block.vtx = coinbase :: rest) (headerGood : goodHeader block.header)
    (coinbaseGood : goodTx coinbase) (sig : block.vchBlockSig.length ≤ MAX_SIZE)
    (headerNotNull : recv.headerIsNull block.header = false) (real : recv.isNull coinbase = false)
    (small : rest.length < 65536) (distinct : (shortIdsOf sipHash txHash rest).Nodup)
    (spread : ∀ k ∈ shortIdsOf sipHash txHash rest,
      ((shortIdsOf sipHash txHash rest).filter fun k' => recv.bucket k' == recv.bucket k).length ≤ 12)
    (extra_txn : List (Nat × α))
    (only : ∀ c ∈ recv.vTxHashes ++ extra_txn, ∀ j : Nat,
      (shortIdsOf sipHash txHash rest)[j]? = some (getShortID sipHash c.1) → rest[j]? = some c.2)
    (valid : checkBlock block = true) (more : List UInt8) :
    readCompactBlock decodeHeader decodeTx
        (writeCompactBlock encodeHeader encodeTx (CBlockHeaderAndShortTxIDs.ofBlock sipHash txHash nonce block) ++
          more) = some (CBlockHeaderAndShortTxIDs.ofBlock sipHash txHash nonce block, more) ∧
      ∃ partialBlock, initData recv sipHash (CBlockHeaderAndShortTxIDs.ofBlock sipHash txHash nonce block)
          extra_txn = some (.ok partialBlock) ∧
        fillBlock checkBlock corruptionPossible partialBlock (missingTxs partialBlock block.vtx) =
          (.ok, some block) := by
  have fitsMax : (65536 : Nat) ≤ MAX_SIZE := by decide
  have shortIds : (CBlockHeaderAndShortTxIDs.ofBlock sipHash txHash nonce block).shorttxids =
      shortIdsOf sipHash txHash rest := by
    rw [CBlockHeaderAndShortTxIDs.ofBlock, vtx, List.tail_cons]
  have prefilled : (CBlockHeaderAndShortTxIDs.ofBlock sipHash txHash nonce block).prefilledtxn =
      [⟨0, coinbase⟩] := by
    rw [CBlockHeaderAndShortTxIDs.ofBlock, vtx]
    rfl
  have ids48 : ∀ id ∈ shortIdsOf sipHash txHash rest, id < 2 ^ 48 := by
    intro id mem
    obtain ⟨tx, -, rfl⟩ := List.mem_map.mp mem
    exact Nat.and_lt_two_pow _ (by decide)
  have roundTrip := readCompactBlock_write headerRoundTrip txRoundTrip
    (CBlockHeaderAndShortTxIDs.ofBlock sipHash txHash nonce block) headerGood sig
    (by rw [shortIds, shortIdsOf, List.length_map]; omega) (by rwa [shortIds])
    (by rw [prefilled, List.length_singleton]; decide) (by rw [prefilled]; simpa using coinbaseGood) more
  have bound : MAX_BLOCK_BASE_SIZE / MIN_TRANSACTION_BASE_SIZE = 142857 := by decide
  refine ⟨roundTrip, _, initData_ofBlock recv sipHash txHash nonce vtx headerNotNull real
    (by omega) distinct spread extra_txn, ?_⟩
  apply fillBlock_missingTxs rfl rfl _ valid
  rw [vtx]
  exact scannedFromBlock_agree recv small distinct only

end Reconstruction

/-- A coinbase and a transaction spending one output, with the node's mempool holding the
second; headers are sent as no bytes, transactions as `SerializeTransaction` without
witnesses writes them. -/
def sampleCoinbase : MutableTransaction := ⟨2, 0, [⟨⟨0, 0xffffffff⟩, [], 0xffffffff, []⟩], [⟨0, []⟩], 0⟩

def sampleSpend : MutableTransaction := ⟨2, 0, [⟨⟨1, 0⟩, [], 0xffffffff, []⟩], [⟨5, [0x51]⟩], 0⟩

def sampleBlock : CBlock Unit MutableTransaction := ⟨(), [sampleCoinbase, sampleSpend], []⟩

def sampleReceiver : Receiver Unit MutableTransaction :=
  ⟨fun _ => false, fun tx => tx.vin.isEmpty && tx.vout.isEmpty, fun _ => 0, id, [(0, sampleSpend)]⟩

theorem compactBlock_reconstructs_sample :
    readCompactBlock (fun bytes => some ((), bytes)) (unserializeTransaction ⟨true, false⟩ 0)
        (writeCompactBlock (fun _ => []) (serializeTransaction ⟨true, false⟩)
          (CBlockHeaderAndShortTxIDs.ofBlock id (fun _ => 0) 0 sampleBlock) ++ []) =
        some (CBlockHeaderAndShortTxIDs.ofBlock id (fun _ => 0) 0 sampleBlock, []) ∧
      ∃ partialBlock, initData sampleReceiver id (CBlockHeaderAndShortTxIDs.ofBlock id (fun _ => 0) 0 sampleBlock)
          [] = some (.ok partialBlock) ∧
        fillBlock (fun _ => true) (fun _ => false) partialBlock (missingTxs partialBlock sampleBlock.vtx) =
          (.ok, some sampleBlock) := by
  have headerRoundTrip : RoundTrip (fun _ : Unit => []) (fun bytes => some ((), bytes)) (fun _ => True) :=
    fun _ _ _ => rfl
  have txRoundTrip : RoundTrip (serializeTransaction ⟨true, false⟩) (unserializeTransaction ⟨true, false⟩ 0)
      (fun tx => tx.vin ≠ [] ∧ tx.Typed ∧ tx.Bounded ∧ tx.through ⟨true, false⟩ 0 = tx) := by
    rintro tx ⟨inputs, typed, bounded, kept⟩ rest
    rw [unserializeTransaction_serializeTransaction _ _ inputs typed bounded, kept]
  have coinbaseGood : sampleCoinbase.vin ≠ [] ∧ sampleCoinbase.Typed ∧ sampleCoinbase.Bounded ∧
      sampleCoinbase.through ⟨true, false⟩ 0 = sampleCoinbase :=
    ⟨by simp [sampleCoinbase], ⟨by decide, by simp [sampleCoinbase], by simp [sampleCoinbase, InSigned]⟩,
      ⟨by simp [sampleCoinbase, MAX_SIZE], by simp [sampleCoinbase, MAX_SIZE], by simp [sampleCoinbase, MAX_SIZE],
        by simp [sampleCoinbase, MAX_SIZE], by simp [sampleCoinbase, MAX_SIZE], by simp [sampleCoinbase, MAX_SIZE]⟩,
      by decide⟩
  have only : ∀ c ∈ sampleReceiver.vTxHashes ++ [], ∀ j : Nat,
      (shortIdsOf id (fun _ => 0) [sampleSpend])[j]? = some (getShortID id c.1) →
        [sampleSpend][j]? = some c.2 := by
    intro c mem j same
    rw [List.append_nil, show sampleReceiver.vTxHashes = [(0, sampleSpend)] from rfl,
      List.mem_singleton] at mem
    subst mem
    cases j with
    | zero => rfl
    | succ j => simp [shortIdsOf] at same
  exact compactBlock_reconstructs headerRoundTrip txRoundTrip sampleReceiver id (fun _ => 0) 0
    (fun _ => true) (fun _ => false) (show sampleBlock.vtx = sampleCoinbase :: [sampleSpend] from rfl)
    trivial coinbaseGood (by decide) rfl rfl (by decide) (by decide) (by decide) [] only rfl []

section Reconstruction

variable {β α : Type}

/-! ### The position of the transaction at 65536 -/

/-- When the coinbase's slot holds another transaction and every other slot is empty,
`FillBlock` with the block's missing transactions builds the block with that transaction
in place of the coinbase. -/
theorem fillBlock_coinbaseSlot {checkBlock corruptionPossible : CBlock β α → Bool}
    {partialBlock : PartiallyDownloadedBlock β α} {block : CBlock β α} {coinbase tx : α}
    {rest : List α} (vtx : block.vtx = coinbase :: rest)
    (slots : partialBlock.txn_available = some tx :: List.replicate rest.length none) :
    (fillBlock checkBlock corruptionPossible partialBlock (missingTxs partialBlock block.vtx)).2 =
      some ⟨partialBlock.header, tx :: rest, partialBlock.vchBlockSig⟩ := by
  have agree : SlotsAgree partialBlock.txn_available (tx :: rest) := by
    rw [slots]
    exact List.Forall₂.cons (Or.inr rfl) (slotsAgree_replicate rest)
  have missing := missingTxs_eq_zip partialBlock [] partialBlock.txn_available block.vtx rfl
    (by rw [slots, vtx]; simp)
  rw [List.length_nil, slots, vtx] at missing
  -- the coinbase's slot is not empty, so the coinbase is not asked for
  have sameMissing : ((some tx :: List.replicate rest.length none).zip (coinbase :: rest)).filterMap
      (fun (slot, tx) => if slot.isSome then none else some tx) =
      (partialBlock.txn_available.zip (tx :: rest)).filterMap
        (fun (slot, tx) => if slot.isSome then none else some tx) := by
    simp only [slots, List.zip_cons_cons, List.filterMap_cons, Option.isSome_some, if_true]
  rw [fillBlock, missingTxs, vtx, missing, sameMissing, fillSlots_agree agree]
  dsimp only
  split <;> (try split) <;> (try split) <;> rfl

/-- In a block of more than 65536 transactions the transaction at position 65536 is mapped
to slot `65536 % 65536 = 0`, the coinbase's: a mempool transaction with its short id takes
the coinbase's slot, and the rebuilt block has that transaction in place of the coinbase,
while the transaction at 65536 is asked for as a missing one. -/
theorem initData_wraps (recv : Receiver β α) (sipHash : Nat → Nat) (txHash : α → Nat)
    (nonce : UInt64) {block : CBlock β α}
    {coinbase : α} {rest : List α} (vtx : block.vtx = coinbase :: rest)
    (headerNotNull : recv.headerIsNull block.header = false) (real : recv.isNull coinbase = false)
    (count : rest.length + 1 ≤ MAX_BLOCK_BASE_SIZE / MIN_TRANSACTION_BASE_SIZE)
    (distinct : (shortIdsOf sipHash txHash rest).Nodup)
    (spread : ∀ k ∈ shortIdsOf sipHash txHash rest,
      ((shortIdsOf sipHash txHash rest).filter fun k' => recv.bucket k' == recv.bucket k).length ≤ 12)
    {h : Nat} {tx : α} (pool : recv.vTxHashes = [(h, tx)])
    (located : (shortIdsOf sipHash txHash rest)[65535]? = some (getShortID sipHash h)) :
    ∃ partialBlock, initData recv sipHash (CBlockHeaderAndShortTxIDs.ofBlock sipHash txHash nonce block)
        [] = some (.ok partialBlock) ∧
      ∀ checkBlock corruptionPossible : CBlock β α → Bool,
        (fillBlock checkBlock corruptionPossible partialBlock (missingTxs partialBlock block.vtx)).2 =
          some ⟨block.header, tx :: rest, block.vchBlockSig⟩ := by
  have found : (positionsFrom 1 (shortIdsOf sipHash txHash rest) ∅).lookup (getShortID sipHash h) =
      some 0 := by
    rw [lookup_positionsFrom distinct located]
    rfl
  -- the one mempool transaction goes to slot 0, over the coinbase
  have scanned : (scannedFromBlock recv sipHash txHash coinbase rest []).txn_available =
      some tx :: List.replicate rest.length none := by
    simp only [scannedFromBlock, scanExtra, scanMempool, pool, scan, scanCandidate, found,
      UInt16.toNat_zero, List.getD_eq_getElem?_getD, List.getElem?_replicate, Nat.zero_lt_succ, if_true,
      Option.getD_some, Bool.not_false, List.set_cons_zero, ite_self]
  exact ⟨_, initData_ofBlock recv sipHash txHash nonce vtx headerNotNull real count distinct spread [],
    fun _ _ => fillBlock_coinbaseSlot vtx scanned⟩

end Reconstruction

/-! ### A block of 65537 transactions -/

/-- A transaction without inputs and outputs, told apart by its lock time, with hash `k`:
14 bytes. -/
def emptyTx (k : Nat) : Transaction := ⟨k, 2, 0, [], [], UInt32.ofNat k⟩

/-- A coinbase with one input and one output. -/
def wrapCoinbase : Transaction :=
  ⟨0, 2, 0, [⟨⟨0, 0xffffffff⟩, [], 0xffffffff, []⟩], [⟨0, []⟩], 0⟩

/-- The 65536 transactions after the coinbase, with hashes 1 to 65536. -/
def wrapRest : List Transaction := (List.range 65536).map fun k => emptyTx (k + 1)

/-- A block of 65537 transactions within `MAX_BLOCK_BASE_SIZE`: the coinbase, then 65536
empty ones. -/
def wrapBlock : CBlock Unit Transaction := ⟨(), wrapCoinbase :: wrapRest, []⟩

/-- A node whose mempool holds the block's transaction at position 65536, with the
buckets of a map of more buckets than keys. -/
def wrapReceiver : Receiver Unit Transaction :=
  ⟨fun _ => false, fun tx => tx.vin.isEmpty && tx.vout.isEmpty, Transaction.hash, id,
    [(65536, emptyTx 65536)]⟩

theorem length_serialize_emptyTx (k : Nat) :
    (serializeTransaction ⟨true, false⟩ (Transaction.toMutable (emptyTx k))).length = 14 := by
  simp [serializeTransaction, Transaction.toMutable, emptyTx, MutableTransaction.HasWitness, writeSigned,
    writeUInt32, writeVector, writeCompactSize]

/-- The block is 917574 bytes and its header's. -/
theorem blockBaseSize_wrapBlock (encodeHeader : Unit → List UInt8) :
    blockBaseSize encodeHeader wrapBlock = (encodeHeader ()).length + 917574 := by
  have coinbase : (serializeTransaction ⟨true, false⟩ (Transaction.toMutable wrapCoinbase)).length = 64 := by
    decide
  have length : wrapRest.length = 65536 := by
    rw [wrapRest, List.length_map, List.length_range]
  have count : (writeCompactSize (wrapCoinbase :: wrapRest).length).length = 5 := by
    rw [List.length_cons, length]
    decide
  have sig : (writeByteVector []).length = 1 := by decide
  have others : (wrapRest.flatMap fun tx => serializeTransaction ⟨true, false⟩ (Transaction.toMutable tx)).length =
      917504 := by
    rw [List.length_flatMap, wrapRest, List.map_map]
    simp only [Function.comp_def, length_serialize_emptyTx, List.map_const', List.length_range,
      List.sum_replicate_nat]
  rw [blockBaseSize, show wrapBlock = ⟨(), wrapCoinbase :: wrapRest, []⟩ from rfl]
  dsimp only
  rw [List.length_append, List.length_append, writeVector, List.length_append, count, List.flatMap_cons,
    List.length_append, coinbase, others, sig]

theorem shortIdsOf_wrapRest : shortIdsOf id Transaction.hash wrapRest = (List.range 65536).map fun k => k + 1 := by
  have masked : ∀ k ∈ List.range 65536, getShortID id (emptyTx (k + 1)).hash = k + 1 := by
    intro k mem
    rw [List.mem_range] at mem
    exact Nat.and_two_pow_sub_one_of_lt_two_pow (show k + 1 < 2 ^ 48 by omega)
  rw [wrapRest, shortIdsOf, List.map_map]
  exact List.map_congr_left masked

/-- A block of 65537 transactions within `MAX_BLOCK_BASE_SIZE`, whose short ids are
distinct, and a mempool holding only its transaction at 65536: `InitData` returns
`READ_STATUS_OK`, but `FillBlock` with the transactions it asks for does not rebuild the
block, whatever `CheckBlock` says. -/
theorem compactBlock_losesCoinbase_anyHeader (encodeHeader : Unit → List UInt8) :
    blockBaseSize encodeHeader wrapBlock = (encodeHeader ()).length + 917574 ∧
      (shortIdsOf id Transaction.hash wrapBlock.vtx.tail).Nodup ∧
      (shortIdsOf id Transaction.hash wrapBlock.vtx.tail)[65535]? = some (getShortID id 65536) ∧
      wrapBlock.vtx.tail[65535]? = some (emptyTx 65536) ∧
      ∃ partialBlock, initData wrapReceiver id
          (CBlockHeaderAndShortTxIDs.ofBlock id Transaction.hash 0 wrapBlock) [] = some (.ok partialBlock) ∧
        ∀ checkBlock corruptionPossible : CBlock Unit Transaction → Bool,
          fillBlock checkBlock corruptionPossible partialBlock (missingTxs partialBlock wrapBlock.vtx) ≠
            (.ok, some wrapBlock) := by
  have vtx : wrapBlock.vtx = wrapCoinbase :: wrapRest := rfl
  have distinct : (shortIdsOf id Transaction.hash wrapRest).Nodup := by
    rw [shortIdsOf_wrapRest]
    exact List.nodup_range.map fun a b same => by omega
  have masked : getShortID id 65536 = 65536 :=
    Nat.and_two_pow_sub_one_of_lt_two_pow (show 65536 < 2 ^ 48 by decide)
  have located : (shortIdsOf id Transaction.hash wrapRest)[65535]? = some (getShortID id 65536) := by
    rw [shortIdsOf_wrapRest, List.getElem?_map, List.getElem?_range (by decide), masked, Option.map_some]
  have tail : wrapRest[65535]? = some (emptyTx 65536) := by
    rw [wrapRest, List.getElem?_map, List.getElem?_range (by decide), Option.map_some]
  -- one key a bucket: the buckets hold the keys themselves
  have spread : ∀ k ∈ shortIdsOf id Transaction.hash wrapRest,
      ((shortIdsOf id Transaction.hash wrapRest).filter
        fun k' => wrapReceiver.bucket k' == wrapReceiver.bucket k).length ≤ 12 := by
    intro k _
    have single := List.nodup_iff_count_le_one.mp distinct k
    rw [List.count_eq_countP, List.countP_eq_length_filter] at single
    exact Nat.le_trans single (by decide)
  have bound : MAX_BLOCK_BASE_SIZE / MIN_TRANSACTION_BASE_SIZE = 142857 := by decide
  have count : wrapRest.length + 1 ≤ MAX_BLOCK_BASE_SIZE / MIN_TRANSACTION_BASE_SIZE := by
    rw [bound, wrapRest, List.length_map, List.length_range]
    decide
  have real : wrapReceiver.isNull wrapCoinbase = false := rfl
  obtain ⟨partialBlock, init, rebuilt⟩ := initData_wraps wrapReceiver id Transaction.hash 0 vtx rfl real
    count distinct spread (show wrapReceiver.vTxHashes = [(65536, emptyTx 65536)] from rfl) located
  have tailEq : wrapBlock.vtx.tail = wrapRest := by
    rw [vtx, List.tail_cons]
  rw [tailEq]
  refine ⟨blockBaseSize_wrapBlock encodeHeader, distinct, located, tail, partialBlock, init,
    fun checkBlock corruptionPossible same => ?_⟩
  have block := rebuilt checkBlock corruptionPossible
  rw [same, Option.some.injEq] at block
  have first := congrArg (fun b => b.vtx.head?) block
  rw [vtx] at first
  simp only [List.head?_cons, Option.some.injEq] at first
  exact absurd (congrArg Transaction.hash first) (by decide)

/-- The same, with a header written as no bytes. -/
theorem compactBlock_losesCoinbase :
    blockBaseSize (fun _ => []) wrapBlock = 917574 ∧
      (shortIdsOf id Transaction.hash wrapBlock.vtx.tail).Nodup ∧
      (shortIdsOf id Transaction.hash wrapBlock.vtx.tail)[65535]? = some (getShortID id 65536) ∧
      wrapBlock.vtx.tail[65535]? = some (emptyTx 65536) ∧
      ∃ partialBlock, initData wrapReceiver id
          (CBlockHeaderAndShortTxIDs.ofBlock id Transaction.hash 0 wrapBlock) [] = some (.ok partialBlock) ∧
        ∀ checkBlock corruptionPossible : CBlock Unit Transaction → Bool,
          fillBlock checkBlock corruptionPossible partialBlock (missingTxs partialBlock wrapBlock.vtx) ≠
            (.ok, some wrapBlock) :=
  compactBlock_losesCoinbase_anyHeader _

end MFCoin.Net
