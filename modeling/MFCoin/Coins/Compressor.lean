/-
Module: MFCoin.Coins.Compressor
Purpose: The compressed form of an output that undo data and the coins database store
  (src/src/compressor.cpp, compressor.h): `CompressAmount` and `DecompressAmount` on
  `uint64_t`, `CScriptCompressor` with its six special forms (key hash, script hash, and
  the four forms of a pay-to-pubkey key), and `CTxOutCompressor`. Every output with a
  value in `MoneyRange` and a script of at most `MAX_SCRIPT_SIZE` bytes reads back as
  written.
Trusted boundary: secp256k1. `CPubKey::IsFullyValid` and `CPubKey::Decompress` are the
  fields of `Secp256k1`, with the law that a key that parses comes back from its x
  coordinate and the parity of its y coordinate.
Main exports: compressAmount, decompressAmount, Secp256k1, serializeScript,
  unserializeScript, serializeTxOut, unserializeTxOut, unserializeTxOut_serializeTxOut
-/
import MFCoin.Primitives.Serialize
import MFCoin.Coins.Coins
import Mathlib.Tactic.IntervalCases

namespace MFCoin.CoinsView

open MFCoin.Script MFCoin.Serialize ByteCodec

/-! ### Amounts -/

/-- The loop of `CompressAmount`: trailing decimal zeros are taken off, nine at most. -/
def stripZeros : Nat → Nat → Nat → Nat × Nat
  | 0, n, e => (n, e)
  | fuel + 1, n, e => if n % 10 = 0 ∧ e < 9 then stripZeros fuel (n / 10) (e + 1) else (n, e)

/-- `CTxOutCompressor::CompressAmount` on a `uint64_t`: the exponent of ten, the last
nonzero digit and the rest, packed into one number. -/
def compressAmount (n : Nat) : Nat :=
  if n = 0 then 0
  else
    let (n, e) := stripZeros 9 n 0
    if e < 9 then
      let d := n % 10
      let n := n / 10
      (1 + (n * 9 + d - 1) * 10 + e) % 2 ^ 64
    else (1 + (n - 1) * 10 + 9) % 2 ^ 64

/-- `CTxOutCompressor::DecompressAmount` on a `uint64_t`. -/
def decompressAmount (x : Nat) : Nat :=
  if x = 0 then 0
  else
    let x := x - 1
    let e := x % 10
    let x := x / 10
    let n := if e < 9 then x / 9 * 10 + (x % 9 + 1) else x + 1
    n * 10 ^ e % 2 ^ 64

/-- What the loop of `CompressAmount` leaves: the number is the rest times a power of ten
of at most nine, and below nine the rest ends in a nonzero digit. -/
theorem stripZeros_spec :
    ∀ (fuel n e : Nat), 0 < n → e + fuel = 9 →
      (stripZeros fuel n e).1 * 10 ^ ((stripZeros fuel n e).2 - e) = n ∧
        0 < (stripZeros fuel n e).1 ∧ e ≤ (stripZeros fuel n e).2 ∧
        (stripZeros fuel n e).2 ≤ 9 ∧
        ((stripZeros fuel n e).2 < 9 → (stripZeros fuel n e).1 % 10 ≠ 0)
  | 0, n, e, positive, bound => by
    simp only [stripZeros, Nat.sub_self, pow_zero, mul_one, true_and]
    exact ⟨positive, le_refl e, by omega, by omega⟩
  | fuel + 1, n, e, positive, bound => by
    by_cases zero : n % 10 = 0 ∧ e < 9
    · -- one more zero comes off
      obtain ⟨rest, restPositive, grew, atMost, nonzero⟩ :=
        stripZeros_spec fuel (n / 10) (e + 1) (by omega) (by omega)
      rw [stripZeros, if_pos zero]
      refine ⟨?_, restPositive, by omega, atMost, nonzero⟩
      have exponent : (stripZeros fuel (n / 10) (e + 1)).2 - e =
          (stripZeros fuel (n / 10) (e + 1)).2 - (e + 1) + 1 := by omega
      rw [exponent, pow_succ, ← mul_assoc, rest]
      omega
    · rw [stripZeros, if_neg zero]
      simp only [Nat.sub_self, pow_zero, mul_one, true_and]
      exact ⟨positive, le_refl e, by omega, fun below => by omega⟩

/-- An amount up to `MAX_MONEY` comes back from its compressed form. -/
theorem decompressAmount_compressAmount {n : Nat} (bounded : n ≤ 10 ^ 17) :
    decompressAmount (compressAmount n) = n := by
  unfold compressAmount
  by_cases zero : n = 0
  · simp [zero, decompressAmount]
  rw [if_neg zero]
  obtain ⟨split, positive, -, atMost, nonzero⟩ := stripZeros_spec 9 n 0 (by omega) rfl
  rcases stripped : stripZeros 9 n 0 with ⟨m, e⟩
  rw [stripped] at split positive atMost nonzero
  simp only [Nat.sub_zero] at split positive atMost nonzero
  -- the rest is at most the amount, so nothing below overflows
  have small : m ≤ 10 ^ 17 := by
    calc m ≤ m * 10 ^ e := Nat.le_mul_of_pos_right m (pow_pos (by decide) e)
      _ = n := split
      _ ≤ 10 ^ 17 := bounded
  dsimp only
  by_cases below : e < 9
  · have digit := nonzero below
    rw [if_pos below, Nat.mod_eq_of_lt (by omega), decompressAmount, if_neg (by omega)]
    dsimp only
    have low : (1 + (m / 10 * 9 + m % 10 - 1) * 10 + e - 1) % 10 = e := by omega
    have high : (1 + (m / 10 * 9 + m % 10 - 1) * 10 + e - 1) / 10 = m / 10 * 9 + m % 10 - 1 := by
      omega
    rw [low, high, if_pos below]
    have rebuilt : (m / 10 * 9 + m % 10 - 1) / 9 * 10 + ((m / 10 * 9 + m % 10 - 1) % 9 + 1) = m := by
      omega
    rw [rebuilt, split, Nat.mod_eq_of_lt (by omega)]
  · have nine : e = 9 := by omega
    subst nine
    rw [if_neg below, Nat.mod_eq_of_lt (by omega), decompressAmount, if_neg (by omega)]
    dsimp only
    have low : (1 + (m - 1) * 10 + 9 - 1) % 10 = 9 := by omega
    have high : (1 + (m - 1) * 10 + 9 - 1) / 10 + 1 = m := by omega
    rw [low, if_neg (by decide), high, split, Nat.mod_eq_of_lt (by omega)]

/-! ### Scripts -/

/-- `nSpecialScripts`: the sizes below it name a special form. -/
def nSpecialScripts : Nat := 6

/-- The part of secp256k1 the compressor rests on: which 65-byte keys parse
(`CPubKey::IsFullyValid`) and the uncompressed form of a 33-byte key
(`CPubKey::Decompress`). A point on the curve is fixed by its x coordinate and the parity
of its y coordinate, so a key that parses comes back from them. -/
structure Secp256k1 where
  isFullyValid : List UInt8 → Bool
  decompress : List UInt8 → Option (List UInt8)
  decompress_parity : ∀ key : List UInt8, key.length = 65 → key[0]? = some 0x04 →
    isFullyValid key = true →
    decompress ((0x02 ||| (key.getD 64 0 &&& 0x01)) :: (key.drop 1).take 32) = some key

/-- `CScriptCompressor::IsToKeyID`: the key hash of `OP_DUP OP_HASH160 <20> OP_EQUALVERIFY
OP_CHECKSIG`. -/
def isToKeyID (script : Script) : Option (List UInt8) :=
  if script.length = 25 ∧ script[0]? = some OP_DUP ∧ script[1]? = some OP_HASH160 ∧
      script[2]? = some 20 ∧ script[23]? = some OP_EQUALVERIFY ∧ script[24]? = some OP_CHECKSIG
  then some ((script.drop 3).take 20) else none

/-- `CScriptCompressor::IsToScriptID`: the script hash of `OP_HASH160 <20> OP_EQUAL`. -/
def isToScriptID (script : Script) : Option (List UInt8) :=
  if script.length = 23 ∧ script[0]? = some OP_HASH160 ∧ script[1]? = some 20 ∧
      script[22]? = some OP_EQUAL
  then some ((script.drop 2).take 20) else none

/-- `CScriptCompressor::IsToPubKey`: the key of `<key> OP_CHECKSIG`, compressed, or
uncompressed and parsing on the curve. -/
def isToPubKey (curve : Secp256k1) (script : Script) : Option (List UInt8) :=
  if script.length = 35 ∧ script[0]? = some 33 ∧ script[34]? = some OP_CHECKSIG ∧
      (script[1]? = some 0x02 ∨ script[1]? = some 0x03)
  then some ((script.drop 1).take 33)
  else if script.length = 67 ∧ script[0]? = some 65 ∧ script[66]? = some OP_CHECKSIG ∧
      script[1]? = some 0x04
  then
    let pubkey := (script.drop 1).take 65
    if curve.isFullyValid pubkey then some pubkey else none
  else none

/-- `CScriptCompressor::Compress`: a special form's number and its 20 or 32 bytes; an
uncompressed key keeps its x coordinate and the parity of its y coordinate. -/
def compressScript (curve : Secp256k1) (script : Script) : Option (List UInt8) :=
  match isToKeyID script with
  | some hash => some (0x00 :: hash)
  | none =>
    match isToScriptID script with
    | some hash => some (0x01 :: hash)
    | none =>
      match isToPubKey curve script with
      | none => none
      | some pubkey =>
        if pubkey[0]? = some 0x02 ∨ pubkey[0]? = some 0x03 then
          some (pubkey.getD 0 0 :: (pubkey.drop 1).take 32)
        else if pubkey[0]? = some 0x04 then
          some ((0x04 ||| (pubkey.getD 64 0 &&& 0x01)) :: (pubkey.drop 1).take 32)
        else none

/-- `CScriptCompressor::GetSpecialSize`. -/
def getSpecialSize (nSize : Nat) : Nat :=
  if nSize = 0 ∨ nSize = 1 then 20
  else if nSize = 2 ∨ nSize = 3 ∨ nSize = 4 ∨ nSize = 5 then 32
  else 0

/-- `CScriptCompressor::Decompress`: the script of a special form, `none` when an
uncompressed key does not decompress. -/
def decompressScript (curve : Secp256k1) (nSize : Nat) (input : List UInt8) : Option Script :=
  if nSize = 0 then some ([OP_DUP, OP_HASH160, 20] ++ input ++ [OP_EQUALVERIFY, OP_CHECKSIG])
  else if nSize = 1 then some ([OP_HASH160, 20] ++ input ++ [OP_EQUAL])
  else if nSize = 2 ∨ nSize = 3 then some ([33, nSize.toUInt8] ++ input ++ [OP_CHECKSIG])
  else if nSize = 4 ∨ nSize = 5 then
    (curve.decompress ((nSize - 2).toUInt8 :: input)).map fun pubkey => [65] ++ pubkey ++ [OP_CHECKSIG]
  else none

/-- `CScriptCompressor::Serialize`: the special form's bytes, else `VARINT` of the size
plus `nSpecialScripts` and the script. -/
def serializeScript (curve : Secp256k1) (script : Script) : List UInt8 :=
  match compressScript curve script with
  | some compr => compr
  | none => writeVarInt 32 ((script.length + nSpecialScripts) % 2 ^ 32) ++ script

/-- `CScriptCompressor::Unserialize` into an empty script: a special form that does not
decompress leaves it empty, and an overlong script is skipped and read as `OP_RETURN`. -/
def unserializeScript (curve : Secp256k1) : Decoder Script := fun bytes => do
  let (nSize, bytes) ← readVarInt 32 bytes
  if nSize < nSpecialScripts then
    let (vch, bytes) ← readBytes (getSpecialSize nSize) bytes
    some ((decompressScript curve nSize vch).getD [], bytes)
  else
    let nSize := nSize - nSpecialScripts
    if nSize > MAX_SCRIPT_SIZE then
      let (_, bytes) ← readBytes nSize bytes
      some ([OP_RETURN], bytes)
    else readBytes nSize bytes

theorem isToKeyID_some {script hash : List UInt8} (found : isToKeyID script = some hash) :
    hash.length = 20 ∧ script = [OP_DUP, OP_HASH160, 20] ++ hash ++ [OP_EQUALVERIFY, OP_CHECKSIG] := by
  unfold isToKeyID at found
  split_ifs at found with shape
  cases found
  obtain ⟨len, b0, b1, b2, b23, b24⟩ := shape
  refine ⟨by simp; omega, frame_eq (by simp; omega) (fun i small => ?_) (fun i small => ?_)⟩
  · simp only [List.length_cons, List.length_nil] at small
    interval_cases i <;> simp [b0, b1, b2]
  · simp only [List.length_cons, List.length_nil] at small
    interval_cases i <;> simp [b23, b24]

theorem isToScriptID_some {script hash : List UInt8} (found : isToScriptID script = some hash) :
    hash.length = 20 ∧ script = [OP_HASH160, 20] ++ hash ++ [OP_EQUAL] := by
  unfold isToScriptID at found
  split_ifs at found with shape
  cases found
  obtain ⟨len, b0, b1, b22⟩ := shape
  refine ⟨by simp; omega, frame_eq (by simp; omega) (fun i small => ?_) (fun i small => ?_)⟩
  · simp only [List.length_cons, List.length_nil] at small
    interval_cases i <;> simp [b0, b1]
  · simp only [List.length_cons, List.length_nil] at small
    interval_cases i
    simp [b22]

/-- The two key forms `IsToPubKey` accepts: a compressed key, or an uncompressed one that
parses; the script is the key's push and `OP_CHECKSIG`. -/
theorem isToPubKey_some {curve : Secp256k1} {script pubkey : List UInt8}
    (found : isToPubKey curve script = some pubkey) :
    ((pubkey.length = 33 ∧ (pubkey[0]? = some 0x02 ∨ pubkey[0]? = some 0x03)) ∨
      (pubkey.length = 65 ∧ pubkey[0]? = some 0x04 ∧ curve.isFullyValid pubkey = true)) ∧
      script = [pubkey.length.toUInt8] ++ pubkey ++ [OP_CHECKSIG] := by
  unfold isToPubKey at found
  dsimp only at found
  split_ifs at found with compressed uncompressed parses <;> cases found
  · obtain ⟨len, b0, b34, b1⟩ := compressed
    have keyLength : ((script.drop 1).take 33).length = 33 := by simp; omega
    refine ⟨.inl ⟨keyLength, by simpa using b1⟩, ?_⟩
    rw [keyLength]
    refine frame_eq (by simp; omega) (fun i small => ?_) (fun i small => ?_)
    · simp only [List.length_cons, List.length_nil] at small
      interval_cases i
      simp [b0]
    · simp only [List.length_cons, List.length_nil] at small
      interval_cases i
      simp [b34]
  · obtain ⟨len, b0, b66, b1⟩ := uncompressed
    have keyLength : ((script.drop 1).take 65).length = 65 := by simp; omega
    refine ⟨.inr ⟨keyLength, by simpa using b1, parses⟩, ?_⟩
    rw [keyLength]
    refine frame_eq (by simp; omega) (fun i small => ?_) (fun i small => ?_)
    · simp only [List.length_cons, List.length_nil] at small
      interval_cases i
      simp [b0]
    · simp only [List.length_cons, List.length_nil] at small
      interval_cases i
      simp [b66]

theorem parity_cases (b : UInt8) : b &&& 0x01 = 0 ∨ b &&& 0x01 = 1 := by
  have low : (b &&& 0x01).toNat = b.toNat % 2 := by
    rw [UInt8.toNat_and]
    simp [Nat.and_one_is_mod]
  rcases Nat.mod_two_eq_zero_or_one b.toNat with even | odd
  · left
    apply UInt8.toNat_inj.mp
    rw [low, even]
    rfl
  · right
    apply UInt8.toNat_inj.mp
    rw [low, odd]
    rfl

/-- The form number of an uncompressed key is 4 or 5, and less two it is the prefix of
the key's compressed form. -/
theorem uncompressed_prefix (b : UInt8) :
    (((0x04 ||| (b &&& 0x01)).toNat - 2).toUInt8 = 0x02 ||| (b &&& 0x01)) ∧
      (0x04 ||| (b &&& 0x01)).toNat < nSpecialScripts ∧
      ((0x04 ||| (b &&& 0x01)).toNat = 4 ∨ (0x04 ||| (b &&& 0x01)).toNat = 5) := by
  rcases parity_cases b with parity | parity <;> rw [parity] <;> decide

/-- A compressed script is a special form's number and bytes that decompress to it. -/
theorem compressScript_some {curve : Secp256k1} {script compr : List UInt8}
    (compressed : compressScript curve script = some compr) :
    ∃ nSize body, compr = nSize.toUInt8 :: body ∧ nSize < nSpecialScripts ∧
      body.length = getSpecialSize nSize ∧ decompressScript curve nSize body = some script := by
  unfold compressScript at compressed
  cases keyID : isToKeyID script with
  | some hash =>
    obtain ⟨len, shape⟩ := isToKeyID_some keyID
    simp only [keyID, Option.some.injEq] at compressed
    exact ⟨0, hash, compressed.symm, by decide, by simp [len, getSpecialSize],
      by simp [decompressScript, shape]⟩
  | none =>
    cases scriptID : isToScriptID script with
    | some hash =>
      obtain ⟨len, shape⟩ := isToScriptID_some scriptID
      simp only [keyID, scriptID, Option.some.injEq] at compressed
      exact ⟨1, hash, compressed.symm, by decide, by simp [len, getSpecialSize],
        by simp [decompressScript, shape]⟩
    | none =>
      cases toKey : isToPubKey curve script with
      | none => simp [keyID, scriptID, toKey] at compressed
      | some pubkey =>
        obtain ⟨form, shape⟩ := isToPubKey_some toKey
        simp only [keyID, scriptID, toKey] at compressed
        obtain ⟨lead, tail, rfl⟩ : ∃ lead tail, pubkey = lead :: tail := by
          cases pubkey with
          | nil => rcases form with ⟨len, -⟩ | ⟨len, -⟩ <;> simp at len
          | cons lead tail => exact ⟨lead, tail, rfl⟩
        rcases form with ⟨len, first⟩ | ⟨len, first, parses⟩
        · -- a compressed key: its first byte is the form's number
          have tailLength : tail.length = 32 := by simpa using len
          have leadForm : lead = 0x02 ∨ lead = 0x03 := by simpa using first
          rw [List.getElem?_cons_zero, if_pos (by simpa using leadForm), List.getD_cons_zero,
            List.drop_one, List.tail_cons, List.take_of_length_le (le_of_eq tailLength),
            Option.some.injEq] at compressed
          refine ⟨lead.toNat, tail, by rw [← compressed, Nat.toUInt8_eq, UInt8.ofNat_toNat], ?_, ?_, ?_⟩
          all_goals rcases leadForm with rfl | rfl
          all_goals simp [nSpecialScripts, getSpecialSize, decompressScript, tailLength, shape, len]
        · -- an uncompressed key: the form keeps the parity of its y coordinate
          have tailLength : tail.length = 64 := by simpa using len
          have leadForm : lead = 0x04 := by simpa using first
          subst leadForm
          obtain ⟨toCompressed, small, fourOrFive⟩ := uncompressed_prefix ((0x04 :: tail).getD 64 0)
          rw [List.getElem?_cons_zero, if_neg (by decide), if_pos rfl, List.drop_one,
            List.tail_cons, Option.some.injEq] at compressed
          refine ⟨(0x04 ||| ((0x04 :: tail).getD 64 0 &&& 0x01)).toNat, tail.take 32,
            by rw [← compressed, Nat.toUInt8_eq, UInt8.ofNat_toNat], small, ?_, ?_⟩
          · rcases fourOrFive with five | five <;> rw [five] <;> simp [getSpecialSize, tailLength]
          · have law := curve.decompress_parity (0x04 :: tail) len first parses
            rw [List.drop_one, List.tail_cons] at law
            simp only [decompressScript]
            rw [if_neg (by omega), if_neg (by omega), if_neg (by omega), if_pos fourOrFive,
              toCompressed, law, shape, len]
            rfl

/-- `CScriptCompressor` reads back every script of at most `MAX_SCRIPT_SIZE` bytes. -/
theorem unserializeScript_serializeScript (curve : Secp256k1) :
    RoundTrip (serializeScript curve) (unserializeScript curve) (·.length ≤ MAX_SCRIPT_SIZE) := by
  intro script bounded rest
  unfold serializeScript
  cases compressed : compressScript curve script with
  | some compr =>
    -- a special form: its number in one byte, then its bytes
    obtain ⟨nSize, body, rfl, special, bodyLength, decompressed⟩ := compressScript_some compressed
    unfold nSpecialScripts at special
    have number := readVarInt_writeVarInt (by decide : 0 < 32) nSize (by omega) (body ++ rest)
    rw [writeVarInt_small (by decide) (by omega), List.singleton_append] at number
    have block := readBytes_append body rest
    rw [bodyLength] at block
    simp only [List.cons_append, unserializeScript, number, nSpecialScripts, special, if_true,
      Option.bind_eq_bind, Option.bind_some, block, decompressed, Option.getD_some]
  | none =>
    -- any other script: its size, shifted past the special numbers, then its bytes
    unfold MAX_SCRIPT_SIZE at bounded
    have sized : (script.length + nSpecialScripts) % 2 ^ 32 = script.length + 6 := by
      unfold nSpecialScripts
      omega
    have number := readVarInt_writeVarInt (by decide : 0 < 32) (script.length + 6) (by omega)
      (script ++ rest)
    rw [sized, List.append_assoc, unserializeScript, number]
    simp only [nSpecialScripts, Option.bind_eq_bind, Option.bind_some, Nat.add_sub_cancel,
      MAX_SCRIPT_SIZE, readBytes_append]
    rw [if_neg (by omega), if_neg (by omega)]

/-- A script longer than `MAX_SCRIPT_SIZE` has no special form: it is written with its
size, and read back as `OP_RETURN` with its bytes skipped. -/
theorem unserializeScript_overlong (curve : Secp256k1) {script : Script}
    (long : MAX_SCRIPT_SIZE < script.length) (fits : script.length + 6 < 2 ^ 32) (rest : List UInt8) :
    unserializeScript curve (serializeScript curve script ++ rest) = some ([OP_RETURN], rest) := by
  unfold MAX_SCRIPT_SIZE at long
  have plain : compressScript curve script = none := by
    have notKey : script.length ≠ 25 := by omega
    have notScript : script.length ≠ 23 := by omega
    have notCompressed : script.length ≠ 35 := by omega
    have notUncompressed : script.length ≠ 67 := by omega
    simp [compressScript, isToKeyID, isToScriptID, isToPubKey, notKey, notScript, notCompressed,
      notUncompressed]
  have sized : (script.length + nSpecialScripts) % 2 ^ 32 = script.length + 6 := by
    unfold nSpecialScripts
    omega
  have number := readVarInt_writeVarInt (by decide : 0 < 32) (script.length + 6) fits (script ++ rest)
  rw [serializeScript, plain, sized, List.append_assoc, unserializeScript, number]
  simp only [nSpecialScripts, Option.bind_eq_bind, Option.bind_some, Nat.add_sub_cancel,
    MAX_SCRIPT_SIZE, readBytes_append]
  rw [if_neg (by omega), if_pos (by omega)]

/-! ### Outputs -/

/-- A `CAmount` as the `uint64_t` that `CompressAmount` takes. -/
def amountToUInt64 (nValue : Int) : Nat := (nValue % 2 ^ 64).toNat

/-- The `uint64_t` that `DecompressAmount` returns, as a `CAmount`. -/
def amountOfUInt64 (x : Nat) : Int := if x < 2 ^ 63 then x else (x : Int) - 2 ^ 64

/-- `CTxOutCompressor::SerializationOp`, writing: the value compressed, as a `VARINT`, then
the compressed script. -/
def serializeTxOut (curve : Secp256k1) (out : TxOut) : List UInt8 :=
  writeVarInt 64 (compressAmount (amountToUInt64 out.nValue)) ++ serializeScript curve out.scriptPubKey

/-- `CTxOutCompressor::SerializationOp`, reading. -/
def unserializeTxOut (curve : Secp256k1) : Decoder TxOut := fun bytes => do
  let (nVal, bytes) ← readVarInt 64 bytes
  let (script, bytes) ← unserializeScript curve bytes
  some (⟨amountOfUInt64 (decompressAmount nVal), script⟩, bytes)

/-- What an output needs to be stored compressed without loss: a value in `MoneyRange` and a
script of at most `MAX_SCRIPT_SIZE` bytes. -/
def TxOut.Compressible (out : TxOut) : Prop :=
  MoneyRange out.nValue ∧ out.scriptPubKey.length ≤ MAX_SCRIPT_SIZE

theorem compressAmount_lt (n : Nat) : compressAmount n < 2 ^ 64 := by
  unfold compressAmount
  split_ifs
  · positivity
  · dsimp only
    split_ifs <;> exact Nat.mod_lt _ (by positivity)

/-- A value in `MoneyRange` comes back from its compressed form. -/
theorem amountOfUInt64_decompressAmount {nValue : Int} (range : MoneyRange nValue) :
    amountOfUInt64 (decompressAmount (compressAmount (amountToUInt64 nValue))) = nValue := by
  obtain ⟨nonneg, atMost⟩ := range
  unfold MAX_MONEY COIN at atMost
  have asUInt64 : amountToUInt64 nValue = nValue.toNat := by
    unfold amountToUInt64
    rw [Int.emod_eq_of_lt nonneg (by omega)]
  rw [asUInt64, decompressAmount_compressAmount (by omega), amountOfUInt64, if_pos (by omega)]
  omega

/-- `CTxOutCompressor` reads back every output it can store. -/
theorem unserializeTxOut_serializeTxOut (curve : Secp256k1) :
    RoundTrip (serializeTxOut curve) (unserializeTxOut curve) TxOut.Compressible := by
  rintro ⟨nValue, script⟩ ⟨range, bounded⟩ rest
  have value := readVarInt_writeVarInt (by decide : 0 < 64)
    (compressAmount (amountToUInt64 nValue)) (compressAmount_lt _)
    (serializeScript curve script ++ rest)
  simp only [serializeTxOut, unserializeTxOut, List.append_assoc, value, Option.bind_eq_bind,
    Option.bind_some, unserializeScript_serializeScript curve script bounded rest,
    amountOfUInt64_decompressAmount range]

/-- An output whose script is longer than `MAX_SCRIPT_SIZE` is read back with `OP_RETURN`
for its script. -/
theorem unserializeTxOut_overlong (curve : Secp256k1) {out : TxOut} (range : MoneyRange out.nValue)
    (long : MAX_SCRIPT_SIZE < out.scriptPubKey.length) (fits : out.scriptPubKey.length + 6 < 2 ^ 32)
    (rest : List UInt8) :
    unserializeTxOut curve (serializeTxOut curve out ++ rest) = some (⟨out.nValue, [OP_RETURN]⟩, rest) := by
  have value := readVarInt_writeVarInt (by decide : 0 < 64)
    (compressAmount (amountToUInt64 out.nValue)) (compressAmount_lt _)
    (serializeScript curve out.scriptPubKey ++ rest)
  simp only [serializeTxOut, unserializeTxOut, List.append_assoc, value, Option.bind_eq_bind,
    Option.bind_some, unserializeScript_overlong curve long fits rest,
    amountOfUInt64_decompressAmount range]

end MFCoin.CoinsView
