/-
Module: MFCoin.Primitives.TxSerialize
Purpose: `SerializeTransaction` and `UnserializeTransaction` (src/src/primitives/transaction.h)
  in every stream flavour: with or without `SERIALIZE_TRANSACTION_NO_WITNESS` in the
  version, with or without `SER_BTC_TX` in the type, which leaves out the ppcoin `nTime`.
  The extended format marks witnesses with an empty input vector and a flags byte. A
  transaction with inputs reads back, with its witnesses when the stream allows them and
  its `nTime` when the stream carries it, as long as every vector fits `MAX_SIZE`;
  `ReadCompactSize` refuses a longer one, and a flags byte other than 0 and 1 is refused.
Trusted boundary: none
Main exports: TxStream, MutableTransaction, serializeTransaction, unserializeTransaction,
  unserializeTransaction_serializeTransaction, unserializeTransaction_unknownFlags
-/
import MFCoin.Primitives.Serialize
import MFCoin.Primitives.Transaction

namespace MFCoin.Serialize

open ByteCodec MFCoin.Script

/-! ### Fixed-width fields -/

/-- A two's complement value of `width` bits, read as the signed integer it stands for. -/
def ofTwosComplement (width x : Nat) : Int :=
  if x < 2 ^ (width - 1) then x else (x : Int) - 2 ^ width

/-- `ser_writedata32` of an `int32_t` and `ser_writedata64` of an `int64_t`: the low bytes of
the two's complement. -/
def writeSigned (width : Nat) (n : Int) : List UInt8 := writeLE (width / 8) (n % 2 ^ width).toNat

def readSigned (width : Nat) : Decoder Int := fun bytes =>
  (readLEInt (width / 8) bytes).map fun (x, rest) => (ofTwosComplement width x, rest)

/-- `ser_writedata32` of a `uint32_t`. -/
def writeUInt32 (n : UInt32) : List UInt8 := writeLE 4 n.toNat

def readUInt32 : Decoder UInt32 := fun bytes =>
  (readLEInt 4 bytes).map fun (x, rest) => (x.toUInt32, rest)

/-- A `uint256` given by its value: 32 bytes, least significant first. -/
def writeHash (hash : TxHash) : List UInt8 := writeLE 32 hash

def readHash : Decoder TxHash := readLEInt 32

/-- A byte vector (`CScriptBase`, a witness stack item): its size, then its bytes. -/
def writeByteVector (v : List UInt8) : List UInt8 := writeCompactSize v.length ++ v

def readByteVector : Decoder (List UInt8) := fun bytes => do
  let (nSize, bytes) ← readCompactSize bytes
  readBytes nSize bytes

/-- `ser_readdata8`: one byte. -/
def readByte : Decoder UInt8
  | [] => none
  | b :: rest => some (b, rest)

/-- A value of a signed C++ integer of `width` bits. -/
def InSigned (width : Nat) (n : Int) : Prop := -2 ^ (width - 1) ≤ n ∧ n < 2 ^ (width - 1)

instance (width : Nat) (n : Int) : Decidable (InSigned width n) := inferInstanceAs (Decidable (_ ∧ _))

/-- A signed value reads back from its two's complement, for a width of whole bytes. -/
theorem readSigned_writeSigned {width : Nat} (bytes : 2 ^ width = 256 ^ (width / 8))
    (half : 2 ^ width = 2 * 2 ^ (width - 1)) :
    RoundTrip (writeSigned width) (readSigned width) (InSigned width) := by
  rintro n ⟨low, high⟩ rest
  have castFull : ((2 ^ width : Nat) : Int) = (2 : Int) ^ width := by norm_cast
  have castHalf : ((2 ^ (width - 1) : Nat) : Int) = (2 : Int) ^ (width - 1) := by norm_cast
  have positive : (0 : Int) < 2 ^ width := by
    rw [← castFull]
    exact_mod_cast Nat.two_pow_pos width
  have reduced := Int.emod_nonneg n positive.ne'
  have below := Int.emod_lt_of_pos n positive
  have fits : (n % 2 ^ width).toNat < 256 ^ (width / 8) := by
    rw [← bytes]
    omega
  simp only [writeSigned, readSigned, readLEInt_writeLE fits, Option.map_some, ofTwosComplement]
  congr 2
  -- a negative value is stored as `n + 2 ^ width`, above the half of the range
  by_cases negative : n < 0
  · have stored : n % 2 ^ width = n + 2 ^ width := by
      rw [Int.emod_eq_add_self_emod, Int.emod_eq_of_lt (by omega) (by omega)]
    rw [if_neg (by omega)]
    omega
  · rw [Int.emod_eq_of_lt (by omega) (by omega), if_pos (by omega)]
    omega

theorem readUInt32_writeUInt32 : RoundTrip writeUInt32 readUInt32 (fun _ => True) := by
  intro n _ rest
  simp only [writeUInt32, readUInt32, readLEInt_writeLE (show n.toNat < 256 ^ 4 from n.toNat_lt),
    Option.map_some, Nat.toUInt32_eq, UInt32.ofNat_toNat]

theorem readHash_writeHash : RoundTrip writeHash readHash (· < 2 ^ 256) := by
  intro hash fits rest
  exact readLEInt_writeLE (by omega) rest

theorem readByteVector_writeByteVector :
    RoundTrip writeByteVector readByteVector (·.length ≤ MAX_SIZE) := by
  intro v fits rest
  simp only [writeByteVector, readByteVector, List.append_assoc,
    readCompactSize_writeCompactSize _ fits, Option.bind_eq_bind, Option.bind_some, readBytes_append]

/-! ### Inputs, outputs and the transaction -/

/-- `CTxIn::SerializationOp`: the outpoint, the script and the sequence; the witness is
written by the transaction. -/
def writeTxIn (txin : TxIn) : List UInt8 :=
  writeHash txin.prevout.hash ++ writeUInt32 txin.prevout.n ++ writeByteVector txin.scriptSig ++
    writeUInt32 txin.nSequence

/-- Reading a `CTxIn` leaves its witness empty. -/
def readTxIn : Decoder TxIn := fun bytes => do
  let (hash, bytes) ← readHash bytes
  let (n, bytes) ← readUInt32 bytes
  let (scriptSig, bytes) ← readByteVector bytes
  let (nSequence, bytes) ← readUInt32 bytes
  some (⟨⟨hash, n⟩, scriptSig, nSequence, []⟩, bytes)

/-- `CTxOut::SerializationOp`: the `int64_t` amount and the script. -/
def writeTxOut (txout : TxOut) : List UInt8 :=
  writeSigned 64 txout.nValue ++ writeByteVector txout.scriptPubKey

def readTxOut : Decoder TxOut := fun bytes => do
  let (nValue, bytes) ← readSigned 64 bytes
  let (scriptPubKey, bytes) ← readByteVector bytes
  some (⟨nValue, scriptPubKey⟩, bytes)

/-- The stream a transaction goes through: whether its version carries
`SERIALIZE_TRANSACTION_NO_WITNESS`, and whether its type carries `SER_BTC_TX`. -/
structure TxStream where
  noWitness : Bool
  btcTx : Bool
deriving DecidableEq, Repr

/-- `CMutableTransaction`: what a serialization holds; the hash of `CTransaction` is computed
from it. -/
structure MutableTransaction where
  nVersion : Int
  nTime : UInt32
  vin : List TxIn
  vout : List TxOut
  nLockTime : UInt32
deriving DecidableEq, Repr

def Transaction.toMutable (tx : Transaction) : MutableTransaction :=
  ⟨tx.nVersion, tx.nTime, tx.vin, tx.vout, tx.nLockTime⟩

/-- `CTransaction::HasWitness`: some input has a non-empty witness stack. -/
def MutableTransaction.HasWitness (tx : MutableTransaction) : Bool :=
  tx.vin.any fun txin => !txin.witness.isEmpty

/-- `SerializeTransaction`. -/
def serializeTransaction (s : TxStream) (tx : MutableTransaction) : List UInt8 :=
  let fAllowWitness := !s.noWitness
  let flags : UInt8 := if fAllowWitness && tx.HasWitness then 1 else 0
  writeSigned 32 tx.nVersion ++ (if s.btcTx then [] else writeUInt32 tx.nTime) ++
    -- the extended format: an empty `vinDummy`, then the flags
    (if flags ≠ 0 then writeCompactSize 0 ++ [flags] else []) ++
    writeVector writeTxIn tx.vin ++ writeVector writeTxOut tx.vout ++
    (if flags &&& 1 ≠ 0 then tx.vin.flatMap fun txin => writeVector writeByteVector txin.witness
      else []) ++
    writeUInt32 tx.nLockTime

/-- The witness loop of `UnserializeTransaction`: each input's stack, in order. -/
def readWitnesses : List TxIn → Decoder (List TxIn)
  | [], bytes => some ([], bytes)
  | txin :: vin, bytes => do
    let (stack, bytes) ← readVector readByteVector bytes
    let (vin, bytes) ← readWitnesses vin bytes
    some ({ txin with witness := stack } :: vin, bytes)

/-- `nTime`, unless the stream is `SER_BTC_TX`: then the field keeps the value it has. -/
def readTime (s : TxStream) (nTimeReset : UInt32) : Decoder UInt32 := fun bytes =>
  if s.btcTx then some (nTimeReset, bytes) else readUInt32 bytes

/-- The inputs, the flags and the outputs. An empty input vector, when witnesses are
allowed, is the dummy of the extended format or a transaction without inputs: the flags
byte after it decides, and with flags 0 the outputs stay empty. -/
def readInputsOutputs (s : TxStream) : Decoder (UInt8 × List TxIn × List TxOut) := fun bytes => do
  let (vin, bytes) ← readVector readTxIn bytes
  if vin.isEmpty && !s.noWitness then do
    let (flags, bytes) ← readByte bytes
    if flags ≠ 0 then do
      let (vin, bytes) ← readVector readTxIn bytes
      let (vout, bytes) ← readVector readTxOut bytes
      some ((flags, vin, vout), bytes)
    else some ((flags, vin, []), bytes)
  else do
    let (vout, bytes) ← readVector readTxOut bytes
    some ((0, vin, vout), bytes)

/-- The witnesses, read when the flags have the witness bit and the stream allows them; the
bit is then cleared from the flags. -/
def readWitnessPart (s : TxStream) (flags : UInt8) (vin : List TxIn) :
    Decoder (UInt8 × List TxIn) := fun bytes =>
  if flags &&& 1 ≠ 0 && !s.noWitness then
    (readWitnesses vin bytes).map fun (vin, bytes) => ((flags ^^^ 1, vin), bytes)
  else some ((flags, vin), bytes)

/-- `UnserializeTransaction` into a `CMutableTransaction` just constructed, whose `nTime` is
`nTimeReset` (`GetAdjustedTime()` at its construction). Flags left after the witness bit
throw `Unknown transaction optional data`. -/
def unserializeTransaction (s : TxStream) (nTimeReset : UInt32) : Decoder MutableTransaction :=
  fun bytes => do
  let (nVersion, bytes) ← readSigned 32 bytes
  let (nTime, bytes) ← readTime s nTimeReset bytes
  let ((flags, vin, vout), bytes) ← readInputsOutputs s bytes
  let ((flags, vin), bytes) ← readWitnessPart s flags vin bytes
  if flags ≠ 0 then none
  else do
    let (nLockTime, bytes) ← readUInt32 bytes
    some (⟨nVersion, nTime, vin, vout, nLockTime⟩, bytes)

/-! ### What a stream keeps of a transaction -/

/-- An input as `readTxIn` returns it: without its witness. -/
def clearWitness (txin : TxIn) : TxIn := { txin with witness := [] }

/-- The fields of a transaction hold values of their C++ types: an `int32_t` version,
`uint256` outpoint hashes and `int64_t` amounts. -/
structure MutableTransaction.Typed (tx : MutableTransaction) : Prop where
  version : InSigned 32 tx.nVersion
  prevouts : ∀ txin ∈ tx.vin, txin.prevout.hash < 2 ^ 256
  values : ∀ txout ∈ tx.vout, InSigned 64 txout.nValue

/-- Every vector of a transaction is within `MAX_SIZE`, the largest size `ReadCompactSize`
accepts. -/
structure MutableTransaction.Bounded (tx : MutableTransaction) : Prop where
  inputs : tx.vin.length ≤ MAX_SIZE
  outputs : tx.vout.length ≤ MAX_SIZE
  scriptSigs : ∀ txin ∈ tx.vin, txin.scriptSig.length ≤ MAX_SIZE
  witnessStacks : ∀ txin ∈ tx.vin, txin.witness.length ≤ MAX_SIZE
  witnessItems : ∀ txin ∈ tx.vin, ∀ item ∈ txin.witness, item.length ≤ MAX_SIZE
  scriptPubKeys : ∀ txout ∈ tx.vout, txout.scriptPubKey.length ≤ MAX_SIZE

/-- What a stream keeps of a transaction: the witnesses only where it allows them and some
input has one, the `nTime` only where it carries it, and otherwise the value the field had. -/
def MutableTransaction.through (s : TxStream) (nTimeReset : UInt32) (tx : MutableTransaction) :
    MutableTransaction :=
  { tx with
    nTime := if s.btcTx then nTimeReset else tx.nTime
    vin := if !s.noWitness && tx.HasWitness then tx.vin else tx.vin.map clearWitness }

theorem readTxIn_writeTxIn {txin : TxIn} (hash : txin.prevout.hash < 2 ^ 256)
    (script : txin.scriptSig.length ≤ MAX_SIZE) (rest : List UInt8) :
    readTxIn (writeTxIn txin ++ rest) = some (clearWitness txin, rest) := by
  simp only [writeTxIn, readTxIn, List.append_assoc, readHash_writeHash _ hash,
    readUInt32_writeUInt32 _ trivial, readByteVector_writeByteVector _ script,
    Option.bind_eq_bind, Option.bind_some]
  rfl

theorem readTxOut_writeTxOut : RoundTrip writeTxOut readTxOut
    (fun txout => InSigned 64 txout.nValue ∧ txout.scriptPubKey.length ≤ MAX_SIZE) := by
  rintro ⟨nValue, scriptPubKey⟩ ⟨value, script⟩ rest
  simp only [writeTxOut, readTxOut, List.append_assoc,
    readSigned_writeSigned (by norm_num) (by norm_num) _ value,
    readByteVector_writeByteVector _ script, Option.bind_eq_bind, Option.bind_some]

/-- The witness loop reads back each input's stack onto the inputs read without them. -/
theorem readWitnesses_write : ∀ (vin : List TxIn),
    (∀ txin ∈ vin, txin.witness.length ≤ MAX_SIZE ∧ ∀ item ∈ txin.witness, item.length ≤ MAX_SIZE) →
      ∀ rest, readWitnesses (vin.map clearWitness)
        (vin.flatMap (fun txin => writeVector writeByteVector txin.witness) ++ rest) = some (vin, rest)
  | [], _, _ => rfl
  | txin :: vin, bounded, rest => by
    obtain ⟨stack, items⟩ := bounded txin List.mem_cons_self
    have read := readVector_writeVector readByteVector_writeByteVector txin.witness ⟨stack, items⟩
      (vin.flatMap (fun txin => writeVector writeByteVector txin.witness) ++ rest)
    have others := readWitnesses_write vin (fun t mem => bounded t (List.mem_cons_of_mem _ mem)) rest
    simp only [List.map_cons, List.flatMap_cons, List.append_assoc, readWitnesses, read, others,
      Option.bind_eq_bind, Option.bind_some]
    rfl

section Stream

variable {tx : MutableTransaction} (typed : tx.Typed) (bounded : tx.Bounded)
include typed bounded

theorem readInputs_write (rest : List UInt8) :
    readVector readTxIn (writeVector writeTxIn tx.vin ++ rest) =
      some (tx.vin.map clearWitness, rest) := by
  have read : readMany readTxIn tx.vin.length (tx.vin.flatMap writeTxIn ++ rest) =
      some (tx.vin.map clearWitness, rest) := readMany_flatMap_map tx.vin
    (fun txin mem rest => readTxIn_writeTxIn (typed.prevouts txin mem) (bounded.scriptSigs txin mem)
      rest) rest
  simp only [writeVector, readVector, List.append_assoc,
    readCompactSize_writeCompactSize _ bounded.inputs, Option.bind_eq_bind, Option.bind_some, read]

theorem readOutputs_write (rest : List UInt8) :
    readVector readTxOut (writeVector writeTxOut tx.vout ++ rest) = some (tx.vout, rest) :=
  readVector_writeVector readTxOut_writeTxOut tx.vout
    ⟨bounded.outputs, fun txout mem => ⟨typed.values txout mem, bounded.scriptPubKeys txout mem⟩⟩ rest

/-- Without witnesses to send, the inputs and the outputs follow the time directly; the
inputs are not empty, so the reader takes the plain branch. -/
theorem readInputsOutputs_plain (s : TxStream) (inputs : tx.vin ≠ []) (rest : List UInt8) :
    readInputsOutputs s (writeVector writeTxIn tx.vin ++ (writeVector writeTxOut tx.vout ++ rest)) =
      some ((0, tx.vin.map clearWitness, tx.vout), rest) := by
  have nonempty : (tx.vin.map clearWitness).isEmpty = false := by
    cases vin : tx.vin with
    | nil => exact absurd vin inputs
    | cons _ _ => rfl
  simp only [readInputsOutputs, readInputs_write typed bounded, Option.bind_eq_bind,
    Option.bind_some, nonempty, Bool.false_and, Bool.false_eq_true, if_false,
    readOutputs_write typed bounded]

/-- The extended format: the empty dummy vector, the flags 1, then the inputs and the
outputs. -/
theorem readInputsOutputs_extended {s : TxStream} (allow : s.noWitness = false)
    (rest : List UInt8) :
    readInputsOutputs s (writeCompactSize 0 ++ [1] ++
        (writeVector writeTxIn tx.vin ++ (writeVector writeTxOut tx.vout ++ rest))) =
      some ((1, tx.vin.map clearWitness, tx.vout), rest) := by
  have dummy : readVector readTxIn (writeCompactSize 0 ++ ([1] ++
      (writeVector writeTxIn tx.vin ++ (writeVector writeTxOut tx.vout ++ rest)))) =
        some ([], [1] ++ (writeVector writeTxIn tx.vin ++ (writeVector writeTxOut tx.vout ++ rest))) := by
    simp only [readVector, readCompactSize_writeCompactSize 0 (by decide), Option.bind_eq_bind,
      Option.bind_some, readMany]
  simp only [readInputsOutputs, List.append_assoc, dummy, Option.bind_eq_bind, Option.bind_some,
    List.isEmpty_nil, allow, Bool.not_false, Bool.and_self, if_true]
  simp only [List.singleton_append, readByte, Option.bind_some, ne_eq,
    readInputs_write typed bounded, readOutputs_write typed bounded]
  rw [if_pos (by decide)]

omit typed in
/-- After the extended format, the witness loop puts each input's stack back. -/
theorem readWitnessPart_witnesses {s : TxStream} (allow : s.noWitness = false) (rest : List UInt8) :
    readWitnessPart s 1 (tx.vin.map clearWitness)
        (tx.vin.flatMap (fun txin => writeVector writeByteVector txin.witness) ++ rest) =
      some ((0, tx.vin), rest) := by
  have read := readWitnesses_write tx.vin
    (fun txin mem => ⟨bounded.witnessStacks txin mem, bounded.witnessItems txin mem⟩) rest
  simp only [readWitnessPart, allow, read]
  rfl

end Stream

theorem readTime_write (s : TxStream) (nTimeReset nTime : UInt32) (rest : List UInt8) :
    readTime s nTimeReset ((if s.btcTx then [] else writeUInt32 nTime) ++ rest) =
      some (if s.btcTx then nTimeReset else nTime, rest) := by
  by_cases btc : s.btcTx = true
  · simp [readTime, btc]
  · simp [readTime, btc, readUInt32_writeUInt32 _ trivial]

/-- A transaction with inputs reads back through every stream: with its witnesses where the
stream allows them and some input has one, with its `nTime` where the stream carries it,
provided its fields hold values of their C++ types and its vectors fit `MAX_SIZE`. -/
theorem unserializeTransaction_serializeTransaction (s : TxStream) (nTimeReset : UInt32)
    {tx : MutableTransaction} (inputs : tx.vin ≠ []) (typed : tx.Typed) (bounded : tx.Bounded)
    (rest : List UInt8) :
    unserializeTransaction s nTimeReset (serializeTransaction s tx ++ rest) =
      some (tx.through s nTimeReset, rest) := by
  have version := readSigned_writeSigned (show 2 ^ 32 = 256 ^ (32 / 8) by norm_num)
    (show 2 ^ 32 = 2 * 2 ^ (32 - 1) by norm_num) _ typed.version
  have time := readTime_write s nTimeReset tx.nTime
  have lockTime := readUInt32_writeUInt32 tx.nLockTime trivial rest
  by_cases extended : (!s.noWitness && tx.HasWitness) = true
  · -- the extended format: the dummy, the flags 1, the inputs, the outputs, the witnesses
    have allow : s.noWitness = false := by simpa using (Bool.and_eq_true _ _).mp extended |>.1
    have layout : serializeTransaction s tx ++ rest = writeSigned 32 tx.nVersion ++
        ((if s.btcTx then [] else writeUInt32 tx.nTime) ++ (writeCompactSize 0 ++ [1] ++
          (writeVector writeTxIn tx.vin ++ (writeVector writeTxOut tx.vout ++
            (tx.vin.flatMap (fun txin => writeVector writeByteVector txin.witness) ++
              (writeUInt32 tx.nLockTime ++ rest)))))) := by
      simp [serializeTransaction, extended]
    rw [unserializeTransaction, layout]
    simp only [version, time, readInputsOutputs_extended typed bounded allow,
      readWitnessPart_witnesses bounded allow, lockTime, Option.bind_eq_bind, Option.bind_some,
      ne_eq, not_true_eq_false, if_false]
    simp [MutableTransaction.through, extended]
  · -- the plain format: the inputs, then the outputs
    have layout : serializeTransaction s tx ++ rest = writeSigned 32 tx.nVersion ++
        ((if s.btcTx then [] else writeUInt32 tx.nTime) ++
          (writeVector writeTxIn tx.vin ++ (writeVector writeTxOut tx.vout ++
            (writeUInt32 tx.nLockTime ++ rest)))) := by
      simp only [Bool.not_eq_true] at extended
      simp [serializeTransaction, extended]
    have noWitnessPart : readWitnessPart s 0 (tx.vin.map clearWitness)
        (writeUInt32 tx.nLockTime ++ rest) =
          some ((0, tx.vin.map clearWitness), writeUInt32 tx.nLockTime ++ rest) := by
      simp [readWitnessPart]
    rw [unserializeTransaction, layout]
    simp only [version, time, readInputsOutputs_plain typed bounded s inputs, noWitnessPart,
      lockTime, Option.bind_eq_bind, Option.bind_some, ne_eq, not_true_eq_false, if_false]
    simp only [Bool.not_eq_true] at extended
    simp [MutableTransaction.through, extended]

/-! ### Unknown flags -/

theorem readLEInt_append {width : Nat} {block : List UInt8} (length : block.length = width)
    (rest : List UInt8) : readLEInt width (block ++ rest) = some (readLE block, rest) := by
  subst length
  simp [readLEInt, readBytes_append]

/-- Behind an empty input vector, with witnesses allowed, the reader takes the flags byte
as it is. -/
theorem readInputsOutputs_flags {s : TxStream} (allow : s.noWitness = false) {flags : UInt8}
    (nonzero : flags ≠ 0) {more : List UInt8} {f : UInt8} {vin : List TxIn} {vout : List TxOut}
    {bytes : List UInt8} (read : readInputsOutputs s (0 :: flags :: more) = some ((f, vin, vout), bytes)) :
    f = flags := by
  have dummy : readVector readTxIn (0 :: flags :: more) = some ([], flags :: more) := by
    simp [readVector, readCompactSize, MAX_SIZE, readMany]
  simp only [readInputsOutputs, dummy, Option.bind_eq_bind, Option.bind_some, List.isEmpty_nil,
    allow, Bool.not_false, Bool.and_self, if_true, readByte, ne_eq, nonzero, not_false_eq_true,
    if_true] at read
  cases inputs : readVector readTxIn more with
  | none => simp [inputs] at read
  | some first =>
    cases outputs : readVector readTxOut first.2 with
    | none => simp [inputs, outputs] at read
    | some second =>
      simp only [inputs, outputs, Option.bind_some, Option.some.injEq, Prod.mk.injEq] at read
      exact read.1.1.symm

/-- Flags other than 0 and 1 are left non-zero by the witness part. -/
theorem readWitnessPart_flags {s : TxStream} {flags : UInt8} (nonzero : flags ≠ 0) (notOne : flags ≠ 1)
    {vin : List TxIn} {bytes : List UInt8} {f : UInt8} {vin' : List TxIn} {bytes' : List UInt8}
    (read : readWitnessPart s flags vin bytes = some ((f, vin'), bytes')) : f ≠ 0 := by
  unfold readWitnessPart at read
  split at read
  · cases witnesses : readWitnesses vin bytes with
    | none => simp [witnesses] at read
    | some w =>
      simp only [witnesses, Option.map_some, Option.some.injEq, Prod.mk.injEq] at read
      rw [← read.1.1]
      intro cleared
      apply notOne
      have back : flags ^^^ 1 ^^^ 1 = flags := by rw [UInt8.xor_assoc, UInt8.xor_self, UInt8.xor_zero]
      rw [← back, cleared, UInt8.zero_xor]
  · simp only [Option.some.injEq, Prod.mk.injEq] at read
    rw [← read.1.1]
    exact nonzero

/-- With witnesses allowed, an empty input vector followed by a flags byte other than 0 and 1
is never accepted: whatever bytes follow, the reader throws. -/
theorem unserializeTransaction_unknownFlags {s : TxStream} (allow : s.noWitness = false)
    (nTimeReset : UInt32) (version time : List UInt8) (versionBytes : version.length = 4)
    (timeBytes : time.length = if s.btcTx then 0 else 4) {flags : UInt8}
    (unknown : flags ≠ 0 ∧ flags ≠ 1) (more : List UInt8) :
    unserializeTransaction s nTimeReset (version ++ time ++ 0 :: flags :: more) = none := by
  have timeRead : ∃ t, readTime s nTimeReset (time ++ 0 :: flags :: more) = some (t, 0 :: flags :: more) := by
    by_cases btc : s.btcTx = true
    · rw [btc, if_pos rfl, List.length_eq_zero_iff] at timeBytes
      exact ⟨nTimeReset, by simp [readTime, btc, timeBytes]⟩
    · rw [if_neg btc] at timeBytes
      exact ⟨(readLE time).toUInt32, by simp [readTime, btc, readUInt32, readLEInt_append timeBytes]⟩
  obtain ⟨t, timeRead⟩ := timeRead
  simp only [unserializeTransaction, List.append_assoc, readSigned, readLEInt_append versionBytes,
    Option.map_some, Option.bind_eq_bind, Option.bind_some, show 32 / 8 = 4 from rfl, timeRead]
  cases body : readInputsOutputs s (0 :: flags :: more) with
  | none => rfl
  | some read =>
    obtain ⟨⟨f, vin, vout⟩, bytes⟩ := read
    have same := readInputsOutputs_flags allow unknown.1 body
    subst same
    cases witnessPart : readWitnessPart s f vin bytes with
    | none => simp [witnessPart]
    | some part =>
      obtain ⟨⟨f', vin'⟩, bytes'⟩ := part
      have left := readWitnessPart_flags unknown.1 unknown.2 witnessPart
      simp [witnessPart, left]

/-! ### Transaction serialization in every flavour -/

/-- Every transaction with inputs, fields of their C++ types and vectors within `MAX_SIZE`
reads back through every stream, with its witnesses where the stream allows them and some
input has one and with its `nTime` where the stream carries it; and with witnesses allowed,
no flags byte other than 0 and 1 is accepted. -/
theorem serializeTransaction_roundTrip :
    (∀ (s : TxStream) (nTimeReset : UInt32) (tx : MutableTransaction), tx.vin ≠ [] → tx.Typed →
      tx.Bounded → ∀ rest : List UInt8,
        unserializeTransaction s nTimeReset (serializeTransaction s tx ++ rest) =
          some (tx.through s nTimeReset, rest)) ∧
    (∀ (s : TxStream), s.noWitness = false → ∀ (nTimeReset : UInt32) (version time : List UInt8),
      version.length = 4 → time.length = (if s.btcTx then 0 else 4) → ∀ flags : UInt8,
        flags ≠ 0 ∧ flags ≠ 1 → ∀ more : List UInt8,
          unserializeTransaction s nTimeReset (version ++ time ++ 0 :: flags :: more) = none) :=
  ⟨fun s nTimeReset _ inputs typed bounded rest =>
    unserializeTransaction_serializeTransaction s nTimeReset inputs typed bounded rest,
   fun _ allow nTimeReset version time versionBytes timeBytes _ unknown more =>
    unserializeTransaction_unknownFlags allow nTimeReset version time versionBytes timeBytes unknown more⟩

/-- A transaction with one input and a witness, sent through a stream that allows witnesses
and carries `nTime`. -/
def witnessedTx : MutableTransaction :=
  ⟨2, 7, [⟨⟨5, 1⟩, [0x51], 0xffffffff, [[0xab]]⟩], [⟨100, [0x51]⟩], 0⟩

theorem serializeTransaction_roundTrip_witnessed :
    witnessedTx.vin ≠ [] ∧ witnessedTx.Typed ∧ witnessedTx.Bounded ∧
      unserializeTransaction ⟨false, false⟩ 0 (serializeTransaction ⟨false, false⟩ witnessedTx ++ []) =
        some (witnessedTx.through ⟨false, false⟩ 0, []) ∧
      unserializeTransaction ⟨false, false⟩ 0 ([2, 0, 0, 0] ++ [7, 0, 0, 0] ++ 0 :: 2 :: []) = none := by
  have inputs : witnessedTx.vin ≠ [] := by simp [witnessedTx]
  have typed : witnessedTx.Typed :=
    ⟨by decide, by simp [witnessedTx], by simp [witnessedTx, InSigned]⟩
  have bounded : witnessedTx.Bounded :=
    ⟨by simp [witnessedTx, MAX_SIZE], by simp [witnessedTx, MAX_SIZE], by simp [witnessedTx, MAX_SIZE],
      by simp [witnessedTx, MAX_SIZE], by simp [witnessedTx, MAX_SIZE], by simp [witnessedTx, MAX_SIZE]⟩
  exact ⟨inputs, typed, bounded,
    serializeTransaction_roundTrip.1 ⟨false, false⟩ 0 witnessedTx inputs typed bounded [],
    serializeTransaction_roundTrip.2 ⟨false, false⟩ rfl 0 [2, 0, 0, 0] [7, 0, 0, 0] rfl rfl 2
      (by decide) []⟩

/-- An input whose script is longer than `MAX_SIZE` is written but not read back:
`ReadCompactSize` throws `size too large` on the script's size. -/
theorem readTxIn_longScript {txin : TxIn} (hash : txin.prevout.hash < 2 ^ 256)
    (long : MAX_SIZE < txin.scriptSig.length) (fits : txin.scriptSig.length < 2 ^ 64)
    (more : List UInt8) : readTxIn (writeTxIn txin ++ more) = none := by
  have script := readCompactSize_tooLarge long fits (txin.scriptSig ++ (writeUInt32 txin.nSequence ++ more))
  simp only [writeTxIn, readTxIn, writeByteVector, List.append_assoc, readHash_writeHash _ hash,
    readUInt32_writeUInt32 _ trivial, readByteVector, script, Option.bind_eq_bind, Option.bind_some,
    Option.bind_none]

/-- A transaction without witnesses whose first input is not read back is not read back,
in any stream. -/
theorem unserializeTransaction_unreadableInput (s : TxStream) (nTimeReset : UInt32)
    {tx : MutableTransaction} (version : InSigned 32 tx.nVersion) (plain : tx.HasWitness = false)
    {txin : TxIn} {vin : List TxIn} (first : tx.vin = txin :: vin) (bounded : tx.vin.length ≤ MAX_SIZE)
    (unreadable : ∀ more, readTxIn (writeTxIn txin ++ more) = none) (rest : List UInt8) :
    unserializeTransaction s nTimeReset (serializeTransaction s tx ++ rest) = none := by
  have layout : serializeTransaction s tx ++ rest = writeSigned 32 tx.nVersion ++
      ((if s.btcTx then [] else writeUInt32 tx.nTime) ++
        (writeVector writeTxIn (txin :: vin) ++
          (writeVector writeTxOut tx.vout ++ (writeUInt32 tx.nLockTime ++ rest)))) := by
    simp only [serializeTransaction, plain, first, Bool.and_false, Bool.false_eq_true, if_false, ne_eq,
      not_true_eq_false, UInt8.zero_and, List.nil_append, List.append_assoc]
  have readVersion := readSigned_writeSigned (show 2 ^ 32 = 256 ^ (32 / 8) by norm_num)
    (show 2 ^ 32 = 2 * 2 ^ (32 - 1) by norm_num) tx.nVersion version
  rw [first] at bounded
  rw [unserializeTransaction, layout]
  simp only [readVersion, readTime_write, readInputsOutputs,
    readVector_writeVector_head bounded unreadable, Option.bind_eq_bind, Option.bind_some,
    Option.bind_none]

/-- A script of `MAX_SIZE + 1` bytes; irreducible, so that no step of a proof evaluates
it. -/
@[irreducible] def longScript : List UInt8 := List.replicate (MAX_SIZE + 1) 0

theorem length_longScript : longScript.length = MAX_SIZE + 1 := by
  unfold longScript
  exact List.length_replicate

/-- An input whose `scriptSig` has `MAX_SIZE + 1` bytes. -/
def longScriptIn : TxIn := ⟨⟨0, 0⟩, longScript, 0xffffffff, []⟩

/-- A transaction with that input and no output. -/
def longScriptTx : MutableTransaction := ⟨1, 0, [longScriptIn], [], 0⟩

/-- A transaction with a vector longer than `MAX_SIZE` is written but never read back, in any
stream. -/
theorem unserializeTransaction_longScript_anyStream (s : TxStream) (nTimeReset : UInt32) (rest : List UInt8) :
    unserializeTransaction s nTimeReset (serializeTransaction s longScriptTx ++ rest) = none := by
  have length : longScriptIn.scriptSig.length = MAX_SIZE + 1 := length_longScript
  have hash : longScriptIn.prevout.hash < 2 ^ 256 := by
    rw [show longScriptIn.prevout.hash = 0 from rfl]
    exact Nat.two_pow_pos 256
  have long : MAX_SIZE < longScriptIn.scriptSig.length := by
    rw [length]
    omega
  have fits : longScriptIn.scriptSig.length < 2 ^ 64 := by
    rw [length]
    unfold MAX_SIZE
    omega
  have plain : longScriptTx.HasWitness = false := by
    simp only [MutableTransaction.HasWitness, longScriptTx, longScriptIn, List.any_cons, List.any_nil,
      List.isEmpty_nil, Bool.not_true, Bool.or_false]
  have bounded : longScriptTx.vin.length ≤ MAX_SIZE := by
    rw [show longScriptTx.vin = [longScriptIn] from rfl, List.length_singleton]
    unfold MAX_SIZE
    omega
  exact unserializeTransaction_unreadableInput s nTimeReset (show InSigned 32 1 by decide) plain rfl
    bounded (readTxIn_longScript hash long fits) rest

/-- The same, in the stream of the witness above, with nothing behind the transaction. -/
theorem unserializeTransaction_longScript :
    unserializeTransaction ⟨false, false⟩ 0 (serializeTransaction ⟨false, false⟩ longScriptTx ++ []) = none :=
  unserializeTransaction_longScript_anyStream _ _ _

end MFCoin.Serialize
