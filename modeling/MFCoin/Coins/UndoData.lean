/-
Module: MFCoin.Coins.UndoData
Purpose: The undo data `ConnectBlock` writes for a block (src/src/undo.h): `CTxInUndo`,
  the spent output with, when it was the transaction's last, the coins' metadata packed
  into `VARINT(nHeight*4+flags)`; `CTxUndo` and `CBlockUndo` as vectors of them. Their
  serialization reads back every record whose height is below `2^30`, whose version is a
  non-negative `int` written only with a height, and whose output `CTxOutCompressor`
  keeps.
Trusted boundary: none beyond `Secp256k1` (MFCoin.Coins.Compressor)
Main exports: TxInUndo, TxUndo, BlockUndo, TxInUndo.Storable, writeBlockUndo,
  readBlockUndo, readBlockUndo_writeBlockUndo
-/
import MFCoin.Coins.Compressor

namespace MFCoin.CoinsView

open MFCoin.Serialize ByteCodec

/-- `CTxInUndo`: the output before it was spent, and, when it was the last unspent one,
the coins' metadata. -/
structure TxInUndo where
  txout : TxOut
  fCoinBase : Bool := false
  nHeight : UInt32 := 0
  nVersion : Int := 0
  fCoinStake : Bool := false
  nTime : UInt32 := 0
deriving DecidableEq, Repr

/-- `CTxUndo`: `vprevout`, one record for each input. -/
abbrev TxUndo := List TxInUndo

/-- `CBlockUndo`: `vtxundo`, one record for each transaction but the coinbase. -/
abbrev BlockUndo := List TxUndo

/-- The `unsigned int` that `VARINT(nHeight*4+(fCoinBase ? 1 : 0)+(fCoinStake ? 2 : 0))`
writes. -/
def TxInUndo.nCode (undo : TxInUndo) : UInt32 :=
  undo.nHeight * 4 + (if undo.fCoinBase then 1 else 0) + (if undo.fCoinStake then 2 else 0)

/-- `CTxInUndo::Serialize`. -/
def TxInUndo.serialize (curve : Secp256k1) (undo : TxInUndo) : List UInt8 :=
  writeVarInt 32 undo.nCode.toNat ++ writeVarInt 32 undo.nTime.toNat ++
    (if undo.nHeight > 0 then writeVarIntSigned undo.nVersion else []) ++
    serializeTxOut curve undo.txout

/-- `CTxInUndo::Unserialize`, into a record made by `CTxInUndo()`: the version stays `0`
when no height is read. -/
def TxInUndo.unserialize (curve : Secp256k1) : Decoder TxInUndo := fun bytes => do
  let (nCode, bytes) ← readVarInt 32 bytes
  let nHeight := (nCode / 4).toUInt32
  let (nTime, bytes) ← readVarInt 32 bytes
  let (nVersion, bytes) ← if nHeight > 0 then readVarIntSigned bytes else some (0, bytes)
  let (txout, bytes) ← unserializeTxOut curve bytes
  let undo : TxInUndo :=
    { txout := txout, fCoinBase := nCode &&& 1 != 0, nHeight := nHeight, nVersion := nVersion,
      fCoinStake := nCode &&& 2 != 0, nTime := nTime.toUInt32 }
  some (undo, bytes)

/-- `CTxUndo` and `CBlockUndo` serialized: vectors of records. -/
def writeTxUndo (curve : Secp256k1) : TxUndo → List UInt8 := writeVector (TxInUndo.serialize curve)

def readTxUndo (curve : Secp256k1) : Decoder TxUndo := readVector (TxInUndo.unserialize curve)

/-- The block's undo data as `UndoWriteToDisk` writes it, without the message start, the
size and the checksum around it. -/
def writeBlockUndo (curve : Secp256k1) : BlockUndo → List UInt8 := writeVector (writeTxUndo curve)

/-- The block's undo data as `UndoReadFromDisk` reads it. -/
def readBlockUndo (curve : Secp256k1) : Decoder BlockUndo := readVector (readTxUndo curve)

/-- A record the serialization keeps: a height that fits in `nHeight*4`, a version that is
a non-negative `int` and is `0` when no height is written, and an output
`CTxOutCompressor` keeps. -/
structure TxInUndo.Storable (undo : TxInUndo) : Prop where
  height : undo.nHeight.toNat < 2 ^ 30
  version : 0 ≤ undo.nVersion ∧ undo.nVersion < 2 ^ 31
  versionWritten : undo.nHeight = 0 → undo.nVersion = 0
  txout : TxOut.Compressible undo.txout

/-- Below `2^30` the height and the two flags sit in `nCode` without overflow. -/
theorem TxInUndo.nCode_toNat {undo : TxInUndo} (height : undo.nHeight.toNat < 2 ^ 30) :
    undo.nCode.toNat =
      undo.nHeight.toNat * 4 + (if undo.fCoinBase then 1 else 0) +
        (if undo.fCoinStake then 2 else 0) := by
  unfold TxInUndo.nCode
  cases undo.fCoinBase <;> cases undo.fCoinStake <;>
    simp [UInt32.toNat_add, UInt32.toNat_mul] <;> omega

/-- The height and the flags read back from `nCode`. -/
theorem nCode_fields (h : Nat) (coinBase coinStake : Bool) :
    let nCode := h * 4 + (if coinBase then 1 else 0) + (if coinStake then 2 else 0)
    nCode / 4 = h ∧ (nCode &&& 1 != 0) = coinBase ∧ (nCode &&& 2 != 0) = coinStake := by
  intro nCode
  -- the flags are the two low bits, below the height
  have low : ∀ m, m &&& 1 = m % 4 &&& 1 ∧ m &&& 2 = m % 4 &&& 2 := by
    intro m
    have four : (4 : Nat) = 2 ^ 2 - 1 + 1 := rfl
    rw [← Nat.and_two_pow_sub_one_eq_mod m 2, Nat.and_assoc, Nat.and_assoc]
    exact ⟨rfl, rfl⟩
  have rem : nCode % 4 = (if coinBase then 1 else 0) + (if coinStake then 2 else 0) := by
    cases coinBase <;> cases coinStake <;> simp only [nCode, Bool.false_eq_true, if_true, if_false] <;>
      omega
  refine ⟨by cases coinBase <;> cases coinStake <;>
    simp only [nCode, Bool.false_eq_true, if_true, if_false] <;> omega, ?_, ?_⟩
  · rw [(low nCode).1, rem]
    cases coinBase <;> cases coinStake <;> decide
  · rw [(low nCode).2, rem]
    cases coinBase <;> cases coinStake <;> decide

/-- `CTxInUndo` reads back every record it can store. -/
theorem TxInUndo.unserialize_serialize (curve : Secp256k1) :
    RoundTrip (TxInUndo.serialize curve) (TxInUndo.unserialize curve) TxInUndo.Storable := by
  rintro ⟨txout, fCoinBase, nHeight, nVersion, fCoinStake, nTime⟩ storable rest
  obtain ⟨height, version, versionWritten, compressible⟩ := storable
  dsimp only at height version versionWritten compressible
  have code := readVarInt_writeVarInt (by decide : 0 < 32)
    (TxInUndo.nCode ⟨txout, fCoinBase, nHeight, nVersion, fCoinStake, nTime⟩).toNat
    (UInt32.toNat_lt _)
  have time := readVarInt_writeVarInt (by decide : 0 < 32) nTime.toNat (UInt32.toNat_lt _)
  have out := unserializeTxOut_serializeTxOut curve txout compressible rest
  obtain ⟨quotient, coinBase, coinStake⟩ := nCode_fields nHeight.toNat fCoinBase fCoinStake
  have codeNat : (TxInUndo.nCode ⟨txout, fCoinBase, nHeight, nVersion, fCoinStake, nTime⟩).toNat =
      nHeight.toNat * 4 + (if fCoinBase then 1 else 0) + (if fCoinStake then 2 else 0) :=
    TxInUndo.nCode_toNat height
  rw [← codeNat] at quotient coinBase coinStake
  simp only [TxInUndo.serialize, TxInUndo.unserialize, List.append_assoc, code, time,
    Option.bind_eq_bind, Option.bind_some, quotient, Nat.toUInt32_eq, UInt32.ofNat_toNat, coinBase,
    coinStake]
  -- the version is written, and read, exactly when there is a height
  by_cases written : nHeight > 0
  · have read := readVarIntSigned_writeVarIntSigned nVersion version
      (serializeTxOut curve txout ++ rest)
    simp only [written, if_true, read, Option.bind_some, out]
  · have zero : nHeight = 0 := by
      simp only [gt_iff_lt, UInt32.lt_iff_toNat_lt, UInt32.toNat_zero] at written
      exact UInt32.toNat_inj.mp (by simp; omega)
    simp only [written, if_false, List.nil_append, Option.bind_some, out, versionWritten zero]

/-- The block's undo data reads back as written when every vector fits `MAX_SIZE` and
every record can be stored. -/
theorem readBlockUndo_writeBlockUndo (curve : Secp256k1) :
    RoundTrip (writeBlockUndo curve) (readBlockUndo curve) fun blockUndo =>
      blockUndo.length ≤ MAX_SIZE ∧ ∀ txundo ∈ blockUndo,
        txundo.length ≤ MAX_SIZE ∧ ∀ undo ∈ txundo, undo.Storable :=
  readVector_writeVector (readVector_writeVector (TxInUndo.unserialize_serialize curve))

end MFCoin.CoinsView
