/-
Module: MFCoin.Net.BlockEncodings
Purpose: The wire formats of the compact block messages (src/src/blockencodings.h):
  `BlockTransactionsRequest` with its differential 16-bit indexes, `PrefilledTransaction`,
  and `CBlockHeaderAndShortTxIDs` with its 48-bit short ids sent as a 32-bit and a 16-bit
  half. Writers and readers follow the source, with the readers' checks and their loop
  that grows a vector by at most 1000 entries a round. Every request with increasing
  indexes and every compact block read back what was written; but the request reader keeps
  its running offset in a `uint16_t`, which wraps to 0 after an index of 65535, so the
  indexes after one of 65535 are read as if they started again at 0.
Trusted boundary: the block header and the transactions are read and written by codecs
  passed as parameters, whose own round trips are hypotheses where they are used.
Main exports: Uint256, BlockTransactionsRequest, writeBlockTransactionsRequest,
  readBlockTransactionsRequest, absoluteIndexes, PrefilledTransaction, CBlockHeaderAndShortTxIDs,
  writeCompactBlock, readCompactBlock, readBlockTransactionsRequest_write,
  readCompactBlock_write
-/
import MFCoin.Primitives.Serialize

namespace MFCoin.Net

open ByteCodec MFCoin.Script MFCoin.Serialize

/-! ### `uint256` and the chunked vector reads -/

/-- A `uint256` as `READWRITE` sends it: its 32 bytes in memory order. -/
structure Uint256 where
  data : List UInt8
  length_data : data.length = 32
deriving DecidableEq

/-- A `uint256` is its bytes. -/
theorem Uint256.ext {a b : Uint256} (same : a.data = b.data) : a = b := by
  cases a
  cases b
  cases same
  rfl

/-- Reading a `uint256`: 32 bytes. -/
def readUint256 : Decoder Uint256 := fun bytes => do
  let (block, rest) ← readBytes 32 bytes
  if h : block.length = 32 then some (⟨block, h⟩, rest) else none

theorem readUint256_data : RoundTrip Uint256.data readUint256 (fun _ => True) := by
  rintro ⟨data, length⟩ - rest
  have block := readBytes_append data rest
  rw [length] at block
  simp [readUint256, block, length]

/-- The loop of the BIP152 readers: while the vector is shorter than its announced size,
grow it by at most 1000 entries and read them. -/
def readChunked {α : Type} (decode : Decoder α) (count : Nat) : Decoder (List α) := fun bytes =>
  if count = 0 then some ([], bytes) else do
    let (first, bytes) ← readMany decode (min 1000 count) bytes
    let (more, bytes) ← readChunked decode (count - min 1000 count) bytes
    some (first ++ more, bytes)
termination_by count
decreasing_by omega

/-- Growing the vector by chunks reads the same values as one loop over the whole size:
the chunks only bound what is allocated ahead of the bytes. -/
theorem readChunked_eq_readMany {α : Type} (decode : Decoder α) (count : Nat) :
    readChunked decode count = readMany decode count := by
  induction count using Nat.strong_induction_on with
  | _ count ih =>
    funext bytes
    rw [readChunked]
    split
    · rename_i empty
      rw [empty, readMany]
    · rename_i nonempty
      have split : count = min 1000 count + (count - min 1000 count) := by omega
      rw [ih _ (by omega)]
      conv => rhs; rw [split, readMany_add]
      cases readMany decode (min 1000 count) bytes with
      | none => rfl
      | some first =>
        simp only [Option.bind_eq_bind, Option.bind_some]
        cases readMany decode (count - min 1000 count) first.2 <;> rfl

/-! ### `BlockTransactionsRequest` -/

/-- A `getblocktxn` message: the block and the positions of the transactions asked for. -/
structure BlockTransactionsRequest where
  blockhash : Uint256
  indexes : List UInt16
deriving DecidableEq

/-- The difference the writer sends for `index` after `previous`:
`indexes[i] - (i == 0 ? 0 : (indexes[i - 1] + 1))`, computed in `int` and converted to
`uint64_t`, so an index not above its predecessor is sent as a value near `2^64`. -/
def difference (previous : Option UInt16) (index : UInt16) : Nat :=
  (((index.toNat : Int) - previous.elim 0 (fun p => (p.toNat : Int) + 1)) % 2 ^ 64).toNat

/-- The differences of the writer's loop, each as a `COMPACTSIZE`. -/
def writeDifferences : Option UInt16 → List UInt16 → List UInt8
  | _, [] => []
  | previous, index :: indexes =>
    writeCompactSize (difference previous index) ++ writeDifferences (some index) indexes

/-- `BlockTransactionsRequest::SerializationOp` writing. -/
def writeBlockTransactionsRequest (req : BlockTransactionsRequest) : List UInt8 :=
  req.blockhash.data ++ writeCompactSize req.indexes.length ++ writeDifferences none req.indexes

/-- One index of the reader's first loop: a `COMPACTSIZE`, and `index overflowed 16 bits`
above 65535. -/
def readIndex : Decoder UInt16 := fun bytes => do
  let (index, rest) ← readCompactSize bytes
  if index > 0xffff then none else some (index.toUInt16, rest)

/-- The reader's second loop: each difference is added to `offset`, `indexes overflowed 16
bits` when the sum passes 65535, and `offset` becomes the index plus one, as a
`uint16_t`. -/
def accumulate (offset : UInt16) : List UInt16 → Option (List UInt16)
  | [] => some []
  | index :: rest =>
    if index.toNat + offset.toNat > 0xffff then none
    else ((index + offset) :: ·) <$> accumulate (index + offset + 1) rest

/-- `BlockTransactionsRequest::SerializationOp` reading. -/
def readBlockTransactionsRequest : Decoder BlockTransactionsRequest := fun bytes => do
  let (blockhash, bytes) ← readUint256 bytes
  let (size, bytes) ← readCompactSize bytes
  let (differences, bytes) ← readChunked readIndex size bytes
  let indexes ← accumulate 0 differences
  some (⟨blockhash, indexes⟩, bytes)

/-- The positions a list of differences stands for: each one past the previous position
plus its difference, with no bound. -/
def absoluteIndexes (next : Nat) : List Nat → List Nat
  | [] => []
  | d :: ds => (next + d) :: absoluteIndexes (next + d + 1) ds

/-! ### The request read back -/

theorem readIndex_write : RoundTrip (fun index : UInt16 => writeCompactSize index.toNat) readIndex
    (fun _ => True) := by
  intro index _ rest
  have fits : index.toNat ≤ MAX_SIZE := by
    have := index.toNat_lt
    unfold MAX_SIZE
    omega
  have small : ¬index.toNat > 0xffff := by
    have := index.toNat_lt
    omega
  simp only [readIndex, readCompactSize_writeCompactSize _ fits, Option.bind_eq_bind,
    Option.bind_some, small, if_false, Nat.toUInt16_eq, UInt16.ofNat_toNat]

/-- The gaps an increasing list leaves: what the writer's loop sends, as the reader's first
loop stores it. -/
def gaps : Option UInt16 → List UInt16 → List UInt16
  | _, [] => []
  | previous, index :: indexes => (index - previous.elim 0 (· + 1)) :: gaps (some index) indexes

@[simp] theorem length_gaps : ∀ (previous : Option UInt16) (indexes : List UInt16),
    (gaps previous indexes).length = indexes.length
  | _, [] => rfl
  | _, _ :: indexes => by simp [gaps, length_gaps _ indexes]

/-- The offset of the reader after `previous`: one past it, or 0 before the first index;
it does not wrap below an index above `previous`. -/
theorem offset_le {previous : Option UInt16} {index : UInt16} (above : ∀ p ∈ previous, p < index) :
    (previous.elim 0 (· + 1) : UInt16).toNat ≤ index.toNat ∧
      (previous.elim 0 (fun p => (p.toNat : Int) + 1) : Int) = (previous.elim 0 (· + 1) : UInt16).toNat := by
  cases previous with
  | none => simp
  | some p =>
    have lt := UInt16.lt_iff_toNat_lt.mp (above p rfl)
    have bound := index.toNat_lt
    have next : (p + 1).toNat = p.toNat + 1 := by
      rw [UInt16.toNat_add, UInt16.toNat_one]
      omega
    simp only [Option.elim_some, next]
    omega

/-- For an index above its predecessor, the writer's `uint64_t` difference is the gap. -/
theorem difference_eq_gap {previous : Option UInt16} {index : UInt16}
    (above : ∀ p ∈ previous, p < index) :
    difference previous index = (index - previous.elim 0 (· + 1)).toNat := by
  obtain ⟨le, offset⟩ := offset_le above
  rw [difference, offset, UInt16.toNat_sub_of_le _ _ (UInt16.le_iff_toNat_le.mpr le)]
  have bound := index.toNat_lt
  omega

/-- An increasing list is sent as its gaps. -/
theorem writeDifferences_eq_gaps : ∀ (previous : Option UInt16) (indexes : List UInt16),
    indexes.Pairwise (· < ·) → (∀ i ∈ indexes, ∀ p ∈ previous, p < i) →
      writeDifferences previous indexes =
        (gaps previous indexes).flatMap fun d => writeCompactSize d.toNat
  | _, [], _, _ => rfl
  | previous, index :: indexes, increasing, above => by
    rw [List.pairwise_cons] at increasing
    have rest := writeDifferences_eq_gaps (some index) indexes increasing.2
      (fun i mem p same => Option.some_inj.mp same ▸ increasing.1 i mem)
    rw [writeDifferences, gaps, List.flatMap_cons, rest,
      difference_eq_gap (above index List.mem_cons_self)]

/-- The reader's second loop turns the gaps of an increasing list back into the list: the
offset never wraps, since only the last index can be 65535. -/
theorem accumulate_gaps : ∀ (previous : Option UInt16) (indexes : List UInt16),
    indexes.Pairwise (· < ·) → (∀ i ∈ indexes, ∀ p ∈ previous, p < i) →
      accumulate (previous.elim 0 (· + 1)) (gaps previous indexes) = some indexes
  | _, [], _, _ => rfl
  | previous, index :: indexes, increasing, above => by
    rw [List.pairwise_cons] at increasing
    have rest := accumulate_gaps (some index) indexes increasing.2
      (fun i mem p same => Option.some_inj.mp same ▸ increasing.1 i mem)
    obtain ⟨le, -⟩ := offset_le (above index List.mem_cons_self)
    have gap := UInt16.toNat_sub_of_le _ _ (UInt16.le_iff_toNat_le.mpr le)
    have bound := index.toNat_lt
    rw [gaps, accumulate, if_neg (by omega), UInt16.sub_add_cancel]
    simp only [Option.elim_some] at rest
    rw [rest]
    rfl

/-- A strictly increasing list of `uint16_t` from `start` on has at most `65536 - start`
entries. -/
theorem length_le_of_increasing : ∀ {start : Nat} {indexes : List UInt16},
    indexes.Pairwise (· < ·) → (∀ i ∈ indexes, start ≤ i.toNat) → indexes.length ≤ 65536 - start
  | _, [], _, _ => Nat.zero_le _
  | start, index :: indexes, increasing, from_start => by
    rw [List.pairwise_cons] at increasing
    have rest : indexes.length ≤ 65536 - (index.toNat + 1) := length_le_of_increasing increasing.2
      (fun i mem => UInt16.lt_iff_toNat_lt.mp (increasing.1 i mem))
    have first := from_start index List.mem_cons_self
    have bound := index.toNat_lt
    rw [List.length_cons]
    omega

/-- Every request whose indexes increase is read back from its serialization. -/
theorem readBlockTransactionsRequest_write (req : BlockTransactionsRequest)
    (increasing : req.indexes.Pairwise (· < ·)) (rest : List UInt8) :
    readBlockTransactionsRequest (writeBlockTransactionsRequest req ++ rest) = some (req, rest) := by
  have fits : req.indexes.length ≤ MAX_SIZE := by
    have : req.indexes.length ≤ 65536 - 0 :=
      length_le_of_increasing increasing (fun _ _ => Nat.zero_le _)
    unfold MAX_SIZE
    omega
  have sent := writeDifferences_eq_gaps none req.indexes increasing (by simp)
  have read := readMany_flatMap readIndex_write (gaps none req.indexes) (by simp) rest
  rw [length_gaps] at read
  simp only [writeBlockTransactionsRequest, readBlockTransactionsRequest, List.append_assoc,
    readUint256_data req.blockhash trivial, sent, readCompactSize_writeCompactSize _ fits,
    readChunked_eq_readMany, read, Option.bind_eq_bind, Option.bind_some]
  rw [show (0 : UInt16) = (none : Option UInt16).elim 0 (· + 1) from rfl,
    accumulate_gaps none req.indexes increasing (by simp)]
  rfl

/-! ### `PrefilledTransaction` and `CBlockHeaderAndShortTxIDs` -/

/-- A transaction sent whole with its index: in the message the difference from the
previous prefilled one, in `PartiallyDownloadedBlock` its position in the block. -/
structure PrefilledTransaction (α : Type) where
  index : UInt16
  tx : α
deriving DecidableEq

/-- `cmpctblock`: the header, the nonce keying the short ids, the block signature of the
proof-of-stake block, the short ids of the transactions not sent, and the prefilled ones. -/
structure CBlockHeaderAndShortTxIDs (β α : Type) where
  header : β
  nonce : UInt64
  vchBlockSig : List UInt8
  shorttxids : List Nat
  prefilledtxn : List (PrefilledTransaction α)
deriving DecidableEq

/-- A short id on the wire: `lsb`, its 32 low bits, then `msb`, the 16 bits above them. -/
def writeShortId (shortid : Nat) : List UInt8 :=
  writeLE 4 (shortid &&& 0xffffffff) ++ writeLE 2 ((shortid >>> 32) &&& 0xffff)

/-- Reading a short id: `(uint64_t(msb) << 32) | uint64_t(lsb)`. -/
def readShortId : Decoder Nat := fun bytes => do
  let (lsb, bytes) ← readLEInt 4 bytes
  let (msb, bytes) ← readLEInt 2 bytes
  some (msb <<< 32 ||| lsb, bytes)

theorem readShortId_write : RoundTrip writeShortId readShortId (· < 2 ^ 48) := by
  intro shortid fits rest
  have lsb : shortid &&& 0xffffffff = shortid % 2 ^ 32 := Nat.and_two_pow_sub_one_eq_mod _ 32
  have msb : (shortid >>> 32) &&& 0xffff = shortid / 2 ^ 32 := by
    rw [show (0xffff : Nat) = 2 ^ 16 - 1 by norm_num, Nat.and_two_pow_sub_one_eq_mod,
      Nat.shiftRight_eq_div_pow, Nat.mod_eq_of_lt (by omega)]
  have joined : (shortid / 2 ^ 32) <<< 32 ||| shortid % 2 ^ 32 = shortid := by
    rw [← Nat.shiftLeft_add_eq_or_of_lt (Nat.mod_lt _ (by norm_num)), Nat.shiftLeft_eq]
    omega
  simp only [writeShortId, readShortId, lsb, msb, List.append_assoc,
    readLEInt_writeLE (show shortid % 2 ^ 32 < 256 ^ 4 by omega),
    readLEInt_writeLE (show shortid / 2 ^ 32 < 256 ^ 2 by omega), Option.bind_eq_bind,
    Option.bind_some, joined]

section Codecs

variable {β α : Type} (encodeHeader : β → List UInt8) (decodeHeader : Decoder β)
  (encodeTx : α → List UInt8) (decodeTx : Decoder α)

/-- `PrefilledTransaction::SerializationOp` writing: the index as a `COMPACTSIZE`, then the
transaction. -/
def writePrefilled (prefilled : PrefilledTransaction α) : List UInt8 :=
  writeCompactSize prefilled.index.toNat ++ encodeTx prefilled.tx

/-- `PrefilledTransaction::SerializationOp` reading, with `index overflowed 16-bits`. -/
def readPrefilled : Decoder (PrefilledTransaction α) := fun bytes => do
  let (idx, bytes) ← readCompactSize bytes
  if idx > 0xffff then none else do
    let (tx, bytes) ← decodeTx bytes
    some (⟨idx.toUInt16, tx⟩, bytes)

/-- `CBlockHeaderAndShortTxIDs::SerializationOp` writing. -/
def writeCompactBlock (cmpctblock : CBlockHeaderAndShortTxIDs β α) : List UInt8 :=
  encodeHeader cmpctblock.header ++ writeLE 8 cmpctblock.nonce.toNat ++
    writeCompactSize cmpctblock.vchBlockSig.length ++ cmpctblock.vchBlockSig ++
    writeCompactSize cmpctblock.shorttxids.length ++ cmpctblock.shorttxids.flatMap writeShortId ++
    writeVector (writePrefilled encodeTx) cmpctblock.prefilledtxn

/-- `CBlockHeaderAndShortTxIDs::SerializationOp` reading. The keys of the short ids, which
`FillShortTxIDSelector` derives from the header and the nonce, are not part of the value. -/
def readCompactBlock : Decoder (CBlockHeaderAndShortTxIDs β α) := fun bytes => do
  let (header, bytes) ← decodeHeader bytes
  let (nonce, bytes) ← readLEInt 8 bytes
  let (sigSize, bytes) ← readCompactSize bytes
  let (vchBlockSig, bytes) ← readBytes sigSize bytes
  let (count, bytes) ← readCompactSize bytes
  let (shorttxids, bytes) ← readChunked readShortId count bytes
  let (prefilledtxn, bytes) ← readVector (readPrefilled decodeTx) bytes
  some (⟨header, nonce.toUInt64, vchBlockSig, shorttxids, prefilledtxn⟩, bytes)

variable {encodeTx decodeTx} {goodTx : α → Prop}

theorem readPrefilled_write (txRoundTrip : RoundTrip encodeTx decodeTx goodTx) :
    RoundTrip (writePrefilled encodeTx) (readPrefilled decodeTx) (fun p => goodTx p.tx) := by
  rintro ⟨index, tx⟩ good rest
  have fits : index.toNat ≤ MAX_SIZE := by
    have := index.toNat_lt
    unfold MAX_SIZE
    omega
  have small : ¬index.toNat > 0xffff := by
    have := index.toNat_lt
    omega
  simp only [writePrefilled, readPrefilled, List.append_assoc,
    readCompactSize_writeCompactSize _ fits, Option.bind_eq_bind, Option.bind_some, small,
    if_false, txRoundTrip tx good rest, Nat.toUInt16_eq, UInt16.ofNat_toNat]

variable {encodeHeader decodeHeader} {goodHeader : β → Prop}

/-- A compact block is read back from its serialization when its header and its prefilled
transactions are, its short ids have 48 bits and its vectors fit `MAX_SIZE`. -/
theorem readCompactBlock_write (headerRoundTrip : RoundTrip encodeHeader decodeHeader goodHeader)
    (txRoundTrip : RoundTrip encodeTx decodeTx goodTx) (cmpctblock : CBlockHeaderAndShortTxIDs β α)
    (header : goodHeader cmpctblock.header) (sig : cmpctblock.vchBlockSig.length ≤ MAX_SIZE)
    (ids : cmpctblock.shorttxids.length ≤ MAX_SIZE) (short : ∀ id ∈ cmpctblock.shorttxids, id < 2 ^ 48)
    (prefilled : cmpctblock.prefilledtxn.length ≤ MAX_SIZE)
    (txs : ∀ p ∈ cmpctblock.prefilledtxn, goodTx p.tx) (rest : List UInt8) :
    readCompactBlock decodeHeader decodeTx (writeCompactBlock encodeHeader encodeTx cmpctblock ++ rest) =
      some (cmpctblock, rest) := by
  have nonce := readLEInt_writeLE (show cmpctblock.nonce.toNat < 256 ^ 8 from cmpctblock.nonce.toNat_lt)
  have shortids := readMany_flatMap readShortId_write cmpctblock.shorttxids short
  have vector := readVector_writeVector (readPrefilled_write txRoundTrip) cmpctblock.prefilledtxn
    ⟨prefilled, txs⟩
  simp only [writeCompactBlock, readCompactBlock, List.append_assoc, headerRoundTrip _ header,
    nonce, readCompactSize_writeCompactSize _ sig, readBytes_append,
    readCompactSize_writeCompactSize _ ids, readChunked_eq_readMany, shortids, vector,
    Option.bind_eq_bind, Option.bind_some, Nat.toUInt64_eq, UInt64.ofNat_toNat]

end Codecs

/-! ### The reader's offset wraps -/

/-- After an index of 65535 the reader's `offset` is `65535 + 1`, which a `uint16_t` holds
as 0: the next difference is read as an index from 0 again. -/
theorem accumulate_wraps {offset d : UInt16} (last : d.toNat + offset.toNat = 0xffff)
    (more : List UInt16) :
    accumulate offset (d :: more) = (0xffff :: ·) <$> accumulate 0 more := by
  have top : d + offset = 0xffff := UInt16.toNat_inj.mp (by rw [UInt16.toNat_add]; simp [last])
  rw [accumulate, if_neg (by omega), top]
  rfl

/-- The request reader accepts an index of 65535 followed by one more index `d`, and returns
`d` as the second index, although the differences stand for the positions 65535 and
65536 + `d`: no `indexes overflowed 16 bits` is thrown. -/
theorem readBlockTransactionsRequest_wraps (blockhash : Uint256) (d : UInt16) (rest : List UInt8) :
    readBlockTransactionsRequest (blockhash.data ++ writeCompactSize 2 ++ writeCompactSize 0xffff ++
        writeCompactSize d.toNat ++ rest) = some (⟨blockhash, [0xffff, d]⟩, rest) ∧
      absoluteIndexes 0 [0xffff, d.toNat] = [0xffff, 0x10000 + d.toNat] := by
  have layout : blockhash.data ++ writeCompactSize 2 ++ writeCompactSize 0xffff ++
      writeCompactSize d.toNat ++ rest = blockhash.data ++ (writeCompactSize 2 ++
        ([(0xffff : UInt16), d].flatMap (fun i => writeCompactSize i.toNat) ++ rest)) := by
    simp
  have read := readMany_flatMap readIndex_write [(0xffff : UInt16), d] (by simp) rest
  refine ⟨?_, by simp [absoluteIndexes]⟩
  rw [layout]
  simp only [readBlockTransactionsRequest, readUint256_data blockhash trivial,
    readCompactSize_writeCompactSize 2 (by decide), readChunked_eq_readMany, Option.bind_eq_bind,
    Option.bind_some]
  rw [show (2 : Nat) = [(0xffff : UInt16), d].length from rfl, read]
  simp only [Option.bind_some]
  rw [accumulate_wraps (by simp) [d]]
  have fits : ¬65535 < d.toNat := by
    have := d.toNat_lt
    omega
  simp [accumulate, fits]

end MFCoin.Net
