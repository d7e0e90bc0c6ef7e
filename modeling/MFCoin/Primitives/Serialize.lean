/-
Module: MFCoin.Primitives.Serialize
Purpose: The integer encodings of the disk formats (src/src/serialize.h): `VARINT`
  (`WriteVarInt`, `ReadVarInt`) for unsigned integers of a given width and for `int`, the
  `CompactSize` length prefix, and vectors. An unsigned `VARINT` and a `CompactSize` up to
  `MAX_SIZE` read back what was written; a negative `int` does not: `WriteVarInt` stops
  after its low seven bits.
Trusted boundary: none
Main exports: writeVarInt, readVarInt, writeVarIntSigned, readVarIntSigned,
  writeCompactSize, readCompactSize, writeVector, readVector, readVarInt_writeVarInt,
  readVarIntSigned_writeVarIntSigned, readVector_writeVector
-/
import MFCoin.Script.Core
import MFCoin.Lib.ByteCodec
import Mathlib.Data.Nat.ModEq
import Mathlib.Tactic.Ring
import Mathlib.Data.List.Induction

namespace MFCoin.Serialize

open MFCoin.Script ByteCodec

/-! ### `VARINT` -/

/-- The loop of `WriteVarInt` with `fuel` bytes of buffer: the base-128 digits of `n`,
most significant first, one less than the quotient above the last, every byte but the
last marked `0x80`. -/
def writeVarIntGo : Nat → Nat → UInt8 → List UInt8
  | 0, _, _ => []
  | fuel + 1, n, mark =>
    if n ≤ 0x7F then [(n % 128).toUInt8 ||| mark]
    else writeVarIntGo fuel (n / 128 - 1) 0x80 ++ [(n % 128).toUInt8 ||| mark]

/-- `WriteVarInt` of an unsigned integer of `width` bits, whose buffer holds
`(width + 6) / 7` bytes. -/
def writeVarInt (width n : Nat) : List UInt8 := writeVarIntGo ((width + 6) / 7) n 0

/-- The loop of `ReadVarInt` into an unsigned integer of `width` bits: each byte shifts
its seven low bits in, and a byte with `0x80` adds one and asks for another. -/
def readVarIntGo (width : Nat) : Nat → Decoder Nat
  | _, [] => none
  | n, b :: rest =>
    let n := (n * 128 + (b &&& 0x7F).toNat) % 2 ^ width
    if b &&& 0x80 ≠ 0 then readVarIntGo width ((n + 1) % 2 ^ width) rest else some (n, rest)

/-- `ReadVarInt` into an unsigned integer of `width` bits. -/
def readVarInt (width : Nat) : Decoder Nat := readVarIntGo width 0

/-- Arithmetic modulo `2 ^ width` forgets an earlier reduction. -/
theorem mod_mul_add_mod (x k r m : Nat) : (x % m * k + r) % m = (x * k + r) % m :=
  ((Nat.mod_modEq x m).mul_right k).add_right r

/-- Reading the marked bytes of `m`: the accumulator is shifted past them, plus `m + 1`. -/
theorem readVarIntGo_continued (width : Nat) :
    ∀ (fuel m acc : Nat) (rest : List UInt8), m < 128 ^ (fuel + 1) →
      readVarIntGo width acc (writeVarIntGo (fuel + 1) m 0x80 ++ rest) =
        readVarIntGo width
          ((acc * 128 ^ (writeVarIntGo (fuel + 1) m 0x80).length + m + 1) % 2 ^ width) rest := by
  intro fuel
  induction fuel with
  | zero =>
    intro m acc rest fits
    have small : m ≤ 0x7F := by omega
    obtain ⟨digit, marked⟩ := continued_digit (show m % 128 < 128 from Nat.mod_lt _ (by decide))
    simp only [writeVarIntGo, small, if_true, List.singleton_append, List.length_singleton,
      pow_one]
    rw [readVarIntGo, if_pos marked, digit, Nat.mod_eq_of_lt (show m < 128 by omega)]
    rw [Nat.add_mod (_ % _), Nat.mod_mod, ← Nat.add_mod]
  | succ fuel ih =>
    intro m acc rest fits
    by_cases small : m ≤ 0x7F
    · obtain ⟨digit, marked⟩ := continued_digit (show m % 128 < 128 from Nat.mod_lt _ (by decide))
      simp only [writeVarIntGo, small, if_true, List.singleton_append, List.length_singleton,
        pow_one]
      rw [readVarIntGo, if_pos marked, digit, Nat.mod_eq_of_lt (show m < 128 by omega)]
      rw [Nat.add_mod (_ % _), Nat.mod_mod, ← Nat.add_mod]
    · -- the quotient's bytes first, then this digit
      have quotientFits : m / 128 - 1 < 128 ^ (fuel + 1) := by
        rw [pow_succ] at fits
        omega
      obtain ⟨digit, marked⟩ := continued_digit (show m % 128 < 128 from Nat.mod_lt _ (by decide))
      have split : m = (m / 128 - 1 + 1) * 128 + m % 128 := by omega
      rw [writeVarIntGo, if_neg small, List.append_assoc, ih _ _ _ quotientFits,
        List.singleton_append, readVarIntGo, if_pos marked, digit]
      rw [List.length_append, List.length_singleton, mod_mul_add_mod, Nat.add_mod (_ % _),
        Nat.mod_mod, ← Nat.add_mod]
      congr 2
      generalize (writeVarIntGo (fuel + 1) (m / 128 - 1) 128).length = len
      calc (acc * 128 ^ len + (m / 128 - 1) + 1) * 128 + m % 128 + 1
          = acc * 128 ^ len * 128 + ((m / 128 - 1 + 1) * 128 + m % 128) + 1 := by ring
        _ = acc * 128 ^ (len + 1) + m + 1 := by rw [← split, pow_succ, mul_assoc]

/-- A value of `width` bits fits the digits `WriteVarInt`'s buffer holds. -/
theorem lt_pow_varIntBytes {width n : Nat} (fits : n < 2 ^ width) :
    n < 128 ^ ((width + 6) / 7) := by
  calc n < 2 ^ width := fits
    _ ≤ 2 ^ (7 * ((width + 6) / 7)) := Nat.pow_le_pow_right (by decide) (by omega)
    _ = 128 ^ ((width + 6) / 7) := by rw [pow_mul]; rfl

/-- `ReadVarInt` reads back what `WriteVarInt` wrote, for every value of the width. -/
theorem readVarInt_writeVarInt {width : Nat} (positive : 0 < width) :
    RoundTrip (writeVarInt width) (readVarInt width) (· < 2 ^ width) := by
  intro n fits rest
  have bytes : (width + 6) / 7 = (width + 6) / 7 - 1 + 1 := by omega
  have enough := lt_pow_varIntBytes fits
  rw [writeVarInt, readVarInt, bytes]
  rw [bytes] at enough
  by_cases small : n ≤ 0x7F
  · obtain ⟨digit, final⟩ := final_digit (show n % 128 < 128 from Nat.mod_lt _ (by decide))
    simp only [writeVarIntGo, small, if_true, List.singleton_append]
    rw [readVarIntGo, UInt8.or_zero, digit, if_neg (not_not.mpr final), zero_mul, zero_add,
      Nat.mod_eq_of_lt (show n % 128 < 2 ^ width by omega), Nat.mod_eq_of_lt (show n < 128 by omega)]
  · -- a value above 127 takes a second byte, so the buffer has room for one more
    have twoBytes : (width + 6) / 7 - 1 = (width + 6) / 7 - 2 + 1 := by
      have wide : 7 < width := by
        by_contra narrow
        have : 2 ^ width ≤ 2 ^ 7 := Nat.pow_le_pow_right (by decide) (by omega)
        omega
      omega
    have quotientFits : n / 128 - 1 < 128 ^ ((width + 6) / 7 - 2 + 1) := by
      rw [← twoBytes]
      rw [pow_succ] at enough
      omega
    obtain ⟨digit, final⟩ := final_digit (show n % 128 < 128 from Nat.mod_lt _ (by decide))
    have split : n = (n / 128 - 1 + 1) * 128 + n % 128 := by omega
    rw [writeVarIntGo, if_neg small, twoBytes, List.append_assoc,
      readVarIntGo_continued width _ _ _ _ quotientFits, List.singleton_append, readVarIntGo,
      UInt8.or_zero, digit, if_neg (not_not.mpr final), zero_mul, zero_add, mod_mul_add_mod,
      ← split, Nat.mod_eq_of_lt fits]

/-- A value below 128 is one byte. -/
theorem writeVarInt_small {width n : Nat} (positive : 0 < width) (small : n ≤ 0x7F) :
    writeVarInt width n = [n.toUInt8] := by
  have bytes : (width + 6) / 7 = (width + 6) / 7 - 1 + 1 := by omega
  rw [writeVarInt, bytes, writeVarIntGo, if_pos small, UInt8.or_zero, Nat.mod_eq_of_lt (by omega)]

/-- `GetSizeOfVarInt`: the number of base-128 digits of `n`, counted as `WriteVarInt` makes
them. -/
def getSizeOfVarInt (n : Nat) : Nat :=
  if n ≤ 0x7F then 1 else getSizeOfVarInt (n / 128 - 1) + 1
termination_by n
decreasing_by omega

theorem writeVarIntGo_length :
    ∀ (fuel n : Nat) (mark : UInt8), n < 128 ^ (fuel + 1) →
      (writeVarIntGo (fuel + 1) n mark).length = getSizeOfVarInt n
  | 0, n, mark, fits => by
    have small : n ≤ 0x7F := by omega
    rw [writeVarIntGo, if_pos small, getSizeOfVarInt, if_pos small, List.length_singleton]
  | fuel + 1, n, mark, fits => by
    by_cases small : n ≤ 0x7F
    · rw [writeVarIntGo, if_pos small, getSizeOfVarInt, if_pos small, List.length_singleton]
    · have quotientFits : n / 128 - 1 < 128 ^ (fuel + 1) := by
        rw [pow_succ] at fits
        omega
      rw [writeVarIntGo, if_neg small, getSizeOfVarInt, if_neg small, List.length_append,
        writeVarIntGo_length fuel _ _ quotientFits, List.length_singleton]

/-- `ReadVarInt` reads back what `WriteVarInt` wrote and consumes exactly the
`GetSizeOfVarInt(n)` bytes written, for every value of the width. -/
theorem readVarInt_writeVarInt_size {width : Nat} (positive : 0 < width) {n : Nat}
    (fits : n < 2 ^ width) (rest : List UInt8) :
    (writeVarInt width n).length = getSizeOfVarInt n ∧
      readVarInt width (writeVarInt width n ++ rest) = some (n, rest) := by
  have bytes : (width + 6) / 7 = (width + 6) / 7 - 1 + 1 := by omega
  have enough := lt_pow_varIntBytes fits
  rw [bytes] at enough
  refine ⟨?_, readVarInt_writeVarInt positive n fits rest⟩
  rw [writeVarInt, bytes, writeVarIntGo_length _ _ _ enough]

/-! ### What `ReadVarInt` consumes -/

/-- One marked byte of `ReadVarInt`: the accumulator shifted, the digit or-ed in, one added. -/
def varIntStep (acc : Nat) (c : UInt8) : Nat := acc * 128 + (c &&& 0x7F).toNat + 1

/-- `ReadVarInt` with every step checked against the width: `none` when the shifted
accumulator or its increment leaves the `width` bits, where `ReadVarInt` reduces them. -/
def readVarIntInRange (width : Nat) : Nat → Decoder Nat
  | _, [] => none
  | n, b :: rest =>
    let n := n * 128 + (b &&& 0x7F).toNat
    if 2 ^ width ≤ n then none
    else if b &&& 0x80 ≠ 0 then
      (if 2 ^ width ≤ n + 1 then none else readVarIntInRange width (n + 1) rest)
    else some (n, rest)

/-- Where no step overflows, the reduction modulo `2 ^ width` changes nothing. -/
theorem readVarIntGo_of_inRange {width : Nat} :
    ∀ {acc : Nat} {bytes rest : List UInt8} {n : Nat},
      readVarIntInRange width acc bytes = some (n, rest) →
        readVarIntGo width acc bytes = some (n, rest)
  | _, [], _, _, h => by simp [readVarIntInRange] at h
  | acc, b :: bytes, rest, n, h => by
    unfold readVarIntInRange at h
    dsimp only at h
    split at h
    · exact absurd h (by simp)
    · rename_i shifted
      rw [readVarIntGo, Nat.mod_eq_of_lt
        (show acc * 128 + (b &&& 0x7F).toNat < 2 ^ width by omega)]
      split at h
      · rename_i marked
        split at h
        · exact absurd h (by simp)
        · rename_i bumped
          rw [if_pos marked, Nat.mod_eq_of_lt
            (show acc * 128 + (b &&& 0x7F).toNat + 1 < 2 ^ width by omega)]
          exact readVarIntGo_of_inRange h
      · rename_i final
        rw [if_neg final]
        exact h

/-- What `ReadVarInt` consumes: marked bytes, then one unmarked byte, whose digits make the
value read. -/
theorem readVarIntInRange_consumed {width : Nat} :
    ∀ {acc : Nat} {bytes rest : List UInt8} {n : Nat},
      readVarIntInRange width acc bytes = some (n, rest) →
        ∃ init last, bytes = init ++ last :: rest ∧ (∀ c ∈ init, c &&& 0x80 ≠ 0) ∧
          last &&& 0x80 = 0 ∧ n = init.foldl varIntStep acc * 128 + (last &&& 0x7F).toNat ∧
          n < 2 ^ width
  | _, [], _, _, h => by simp [readVarIntInRange] at h
  | acc, b :: bytes, rest, n, h => by
    unfold readVarIntInRange at h
    dsimp only at h
    split at h
    · exact absurd h (by simp)
    · rename_i shifted
      split at h
      · rename_i marked
        split at h
        · exact absurd h (by simp)
        · obtain ⟨init, last, split, marks, final, value, fits⟩ := readVarIntInRange_consumed h
          refine ⟨b :: init, last, by rw [split]; rfl, ?_, final, ?_, fits⟩
          · intro c mem
            rcases List.mem_cons.mp mem with rfl | inInit
            · exact marked
            · exact marks c inInit
          · rw [value, List.foldl_cons, varIntStep]
      · rename_i final
        simp only [Option.some.injEq, Prod.mk.injEq] at h
        obtain ⟨rfl, rfl⟩ := h
        refine ⟨[], b, rfl, by simp, by simpa using final, by simp, by omega⟩

/-- Marked bytes shift the value of what follows them by a power of 128 at least. -/
theorem pow_le_varIntStep :
    ∀ (init : List UInt8), init ≠ [] → 128 ^ init.length ≤ init.foldl varIntStep 0 * 128 := by
  intro init
  induction init using List.reverseRecOn with
  | nil => intro h; exact absurd rfl h
  | append_singleton init c ih =>
    intro _
    rw [List.foldl_append, List.foldl_cons, List.foldl_nil, varIntStep, List.length_append,
      List.length_singleton, pow_succ]
    by_cases empty : init = []
    · subst empty
      simp
    · have shifted := ih empty
      calc 128 ^ init.length * 128 ≤ init.foldl varIntStep 0 * 128 * 128 :=
            Nat.mul_le_mul_right _ shifted
        _ ≤ (init.foldl varIntStep 0 * 128 + (c &&& 0x7F).toNat + 1) * 128 :=
            Nat.mul_le_mul_right _ (by omega)

/-- Marked bytes then a last byte are what `WriteVarInt` writes for their value, given a
buffer longer than the marked bytes. -/
theorem writeVarIntGo_consumed :
    ∀ (init : List UInt8), (∀ c ∈ init, c &&& 0x80 ≠ 0) →
      ∀ (last mark : UInt8) (fuel : Nat), last &&& 0x80 = mark → init.length < fuel →
        writeVarIntGo fuel (init.foldl varIntStep 0 * 128 + (last &&& 0x7F).toNat) mark =
          init ++ [last] := by
  intro init
  induction init using List.reverseRecOn with
  | nil =>
    intro _ last mark fuel marked more
    obtain ⟨fuel, rfl⟩ : ∃ f, fuel = f + 1 := ⟨fuel - 1, by simp at more; omega⟩
    have small := low_digit_lt last
    rw [List.foldl_nil, zero_mul, zero_add, writeVarIntGo, if_pos (by omega),
      Nat.mod_eq_of_lt small, ← marked, digit_with_mark, List.nil_append]
  | append_singleton init c ih =>
    intro marks last mark fuel marked more
    obtain ⟨fuel, rfl⟩ : ∃ f, fuel = f + 1 := ⟨fuel - 1, by simp at more; omega⟩
    have small := low_digit_lt last
    have cMarked := mark_of_ne_zero (marks c (by simp))
    have value : (init ++ [c]).foldl varIntStep 0 * 128 + (last &&& 0x7F).toNat =
        (init.foldl varIntStep 0 * 128 + (c &&& 0x7F).toNat + 1) * 128 + (last &&& 0x7F).toNat := by
      rw [List.foldl_append, List.foldl_cons, List.foldl_nil, varIntStep]
    rw [value, writeVarIntGo, if_neg (by omega)]
    -- the quotient is the value of the marked bytes with `c` last, the remainder the digit
    rw [show ((init.foldl varIntStep 0 * 128 + (c &&& 0x7F).toNat + 1) * 128 +
        (last &&& 0x7F).toNat) / 128 - 1 = init.foldl varIntStep 0 * 128 + (c &&& 0x7F).toNat by omega,
      show ((init.foldl varIntStep 0 * 128 + (c &&& 0x7F).toNat + 1) * 128 +
        (last &&& 0x7F).toNat) % 128 = (last &&& 0x7F).toNat by omega,
      ih (fun b mem => marks b (by simp [mem])) c 0x80 fuel cMarked
        (by simp at more; omega), ← marked, digit_with_mark]

/-- What `ReadVarInt` consumes without overflow is what `WriteVarInt` writes for the value
read: the bytes after the value are left as they were. -/
theorem writeVarInt_readVarInt {width : Nat} (positive : 0 < width) {bytes rest : List UInt8}
    {n : Nat} (inRange : readVarIntInRange width 0 bytes = some (n, rest)) :
    readVarInt width bytes = some (n, rest) ∧ writeVarInt width n ++ rest = bytes := by
  refine ⟨readVarIntGo_of_inRange inRange, ?_⟩
  obtain ⟨init, last, split, marks, final, value, fits⟩ := readVarIntInRange_consumed inRange
  -- the marked bytes are fewer than the digits of the buffer
  have shorter : init.length < (width + 6) / 7 := by
    by_cases empty : init = []
    · subst empty
      simp only [List.length_nil]
      omega
    · have low := pow_le_varIntStep init empty
      have big := lt_pow_varIntBytes fits
      have below : 128 ^ init.length < 128 ^ ((width + 6) / 7) := by omega
      exact (Nat.pow_lt_pow_iff_right (show 1 < 128 by decide)).mp below
  rw [writeVarInt, value, writeVarIntGo_consumed init marks last 0 _ final shorter, split,
    List.append_assoc, List.singleton_append]

/-- VARINT is a bijection on each unsigned width: what `WriteVarInt` writes, `ReadVarInt` reads
back in `GetSizeOfVarInt(n)` bytes, and what `ReadVarInt` reads without overflow,
`WriteVarInt` writes again byte for byte. -/
theorem varInt_bijection {width : Nat} (positive : 0 < width) :
    (∀ n < 2 ^ width, ∀ rest : List UInt8, (writeVarInt width n).length = getSizeOfVarInt n ∧
      readVarInt width (writeVarInt width n ++ rest) = some (n, rest)) ∧
    (∀ (bytes rest : List UInt8) (n : Nat), readVarIntInRange width 0 bytes = some (n, rest) →
      readVarInt width bytes = some (n, rest) ∧ writeVarInt width n ++ rest = bytes) :=
  ⟨fun _ fits rest => readVarInt_writeVarInt_size positive fits rest,
    fun _ _ _ inRange => writeVarInt_readVarInt positive inRange⟩

theorem varInt_bijection_two_bytes :
    0 < 32 ∧ readVarIntInRange 32 0 [0x80, 0x00] = some (128, []) ∧
      readVarInt 32 [0x80, 0x00] = some (128, []) ∧ writeVarInt 32 128 ++ [] = [0x80, 0x00] :=
  ⟨by decide, by decide,
    (varInt_bijection (by decide : 0 < 32)).2 [0x80, 0x00] [] 128 (by decide)⟩

/-- `WriteVarInt` of an `int`: the loop of the unsigned case, except that a negative value
passes the test `n <= 0x7F` at once and leaves one byte, its low seven bits. -/
def writeVarIntSigned (n : Int) : List UInt8 :=
  if n < 0 then [(n % 128).toNat.toUInt8] else writeVarInt 32 n.toNat

/-- `ReadVarInt` into an `int`: the 32 bits read, as a two's complement value. -/
def readVarIntSigned : Decoder Int := fun bytes =>
  (readVarInt 32 bytes).map fun (n, rest) => (if n < 2 ^ 31 then (n : Int) else n - 2 ^ 32, rest)

theorem readVarIntSigned_writeVarIntSigned :
    RoundTrip writeVarIntSigned readVarIntSigned (fun n => 0 ≤ n ∧ n < 2 ^ 31) := by
  rintro n ⟨nonneg, fits⟩ rest
  have unsigned := readVarInt_writeVarInt (by decide : 0 < 32) n.toNat (by omega) rest
  simp only [writeVarIntSigned, not_lt.mpr nonneg, if_false, readVarIntSigned, unsigned,
    Option.map_some]
  rw [if_pos (by omega), Int.toNat_of_nonneg nonneg]

/-- A negative `int` comes back as its low seven bits. -/
theorem readVarIntSigned_negative {n : Int} (negative : n < 0) (rest : List UInt8) :
    readVarIntSigned (writeVarIntSigned n ++ rest) = some (n % 128, rest) := by
  have low : (n % 128).toNat < 128 := by omega
  obtain ⟨digit, final⟩ := final_digit low
  simp only [writeVarIntSigned, negative, if_true, readVarIntSigned, readVarInt,
    List.singleton_append, readVarIntGo, digit, final, ne_eq, not_true_eq_false, if_false,
    zero_mul, zero_add, Option.map_some]
  rw [Nat.mod_eq_of_lt (by omega), if_pos (by omega)]
  congr
  omega

/-! ### `CompactSize` and vectors -/

/-- `MAX_SIZE`: the largest size `ReadCompactSize` accepts. -/
def MAX_SIZE : Nat := 0x02000000

/-- `WriteCompactSize`: one byte below 253, else a marker and 2, 4 or 8 little-endian
bytes. -/
def writeCompactSize (nSize : Nat) : List UInt8 :=
  if nSize < 253 then [nSize.toUInt8]
  else if nSize ≤ 0xffff then 253 :: writeLE 2 nSize
  else if nSize ≤ 0xffffffff then 254 :: writeLE 4 nSize
  else 255 :: writeLE 8 nSize

/-- `ser_readdata16`, `ser_readdata32`, `ser_readdata64`: a little-endian integer of
`width` bytes. -/
def readLEInt (width : Nat) : Decoder Nat := fun bytes =>
  (readBytes width bytes).map fun (block, rest) => (readLE block, rest)

/-- One wide form of `ReadCompactSize`: it throws `non-canonical ReadCompactSize()` on a
value a narrower form holds. -/
def readCanonical (width least : Nat) : Decoder Nat := fun bytes => do
  let (nSize, rest) ← readLEInt width bytes
  if nSize < least then none else some (nSize, rest)

/-- `ReadCompactSize`, with its `size too large` check. -/
def readCompactSize : Decoder Nat
  | [] => none
  | chSize :: bytes => do
    let (nSizeRet, rest) ←
      if chSize < 253 then some (chSize.toNat, bytes)
      else if chSize = 253 then readCanonical 2 253 bytes
      else if chSize = 254 then readCanonical 4 0x10000 bytes
      else readCanonical 8 0x100000000 bytes
    if nSizeRet > MAX_SIZE then none else some (nSizeRet, rest)

theorem writeLE_succ (width n : Nat) : writeLE (width + 1) n = n.toUInt8 :: writeLE width (n / 256) := by
  simp only [writeLE, List.range_succ_eq_map, List.map_cons, List.map_map, pow_zero,
    Nat.div_one, List.cons.injEq, true_and]
  apply List.map_congr_left
  intro i _
  simp only [Function.comp, Nat.succ_eq_add_one, pow_succ', Nat.div_div_eq_div_mul]

@[simp] theorem length_writeLE (width n : Nat) : (writeLE width n).length = width := by
  simp [writeLE]

/-- The little-endian bytes read back their value, reduced to the width. -/
theorem readLE_writeLE : ∀ (width n : Nat), readLE (writeLE width n) = n % 256 ^ width
  | 0, n => by simp [writeLE, readLE, Nat.mod_one]
  | width + 1, n => by
    rw [writeLE_succ, readLE, readLE_writeLE width (n / 256), pow_succ', Nat.mod_mul]
    simp

theorem readLEInt_writeLE {width n : Nat} (fits : n < 256 ^ width) (rest : List UInt8) :
    readLEInt width (writeLE width n ++ rest) = some (n, rest) := by
  have block := readBytes_append (writeLE width n) rest
  rw [length_writeLE] at block
  simp only [readLEInt, block, Option.map_some, readLE_writeLE, Nat.mod_eq_of_lt fits]

/-- `ReadCompactSize` reads back every size up to `MAX_SIZE`. -/
theorem readCompactSize_writeCompactSize :
    RoundTrip writeCompactSize readCompactSize (· ≤ MAX_SIZE) := by
  intro nSize bounded rest
  unfold MAX_SIZE at bounded
  unfold writeCompactSize
  by_cases oneByte : nSize < 253
  · have marker : nSize.toUInt8 < 253 := by
      rw [UInt8.lt_iff_toNat_lt]
      simp only [Nat.toUInt8_eq, UInt8.toNat_ofNat', UInt8.reduceToNat]
      omega
    simp [oneByte, readCompactSize, marker, MAX_SIZE, Nat.mod_eq_of_lt (by omega : nSize < 256)]
    omega
  · by_cases twoBytes : nSize ≤ 0xffff
    · simp [oneByte, twoBytes, readCompactSize, readCanonical,
        readLEInt_writeLE (show nSize < 256 ^ 2 by omega), MAX_SIZE]
      omega
    · have fourBytes : nSize ≤ 0xffffffff := by omega
      simp [oneByte, twoBytes, fourBytes, readCompactSize, readCanonical,
        readLEInt_writeLE (show nSize < 256 ^ 4 by omega), MAX_SIZE]
      rw [if_neg (by omega : ¬nSize < 65536)]
      simp only [Option.bind_some, if_neg (by omega : ¬33554432 < nSize)]

/-- `ReadCompactSize` throws `size too large` on every size above `MAX_SIZE` that a
`uint64_t` holds. -/
theorem readCompactSize_tooLarge {nSize : Nat} (large : MAX_SIZE < nSize) (fits : nSize < 2 ^ 64)
    (rest : List UInt8) : readCompactSize (writeCompactSize nSize ++ rest) = none := by
  unfold MAX_SIZE at large
  have wide : ¬nSize < 253 ∧ ¬nSize ≤ 0xffff := ⟨by omega, by omega⟩
  by_cases fourBytes : nSize ≤ 0xffffffff
  · simp [writeCompactSize, wide, fourBytes, readCompactSize, readCanonical,
      readLEInt_writeLE (show nSize < 256 ^ 4 by omega), MAX_SIZE]
    omega
  · simp [writeCompactSize, wide, fourBytes, readCompactSize, readCanonical,
      readLEInt_writeLE (show nSize < 256 ^ 8 by omega), MAX_SIZE]
    omega

/-- A vector: its size, then its elements. -/
def writeVector {α : Type} (encode : α → List UInt8) (values : List α) : List UInt8 :=
  writeCompactSize values.length ++ values.flatMap encode

/-- Reading a vector: the size, then as many elements. -/
def readVector {α : Type} (decode : Decoder α) : Decoder (List α) := fun bytes => do
  let (nSize, bytes) ← readCompactSize bytes
  readMany decode nSize bytes

theorem readVector_writeVector {α : Type} {encode : α → List UInt8} {decode : Decoder α}
    {good : α → Prop} (roundTrip : RoundTrip encode decode good) :
    RoundTrip (writeVector encode) (readVector decode)
      (fun values => values.length ≤ MAX_SIZE ∧ ∀ a ∈ values, good a) := by
  rintro values ⟨bounded, allGood⟩ rest
  simp only [writeVector, readVector, List.append_assoc,
    readCompactSize_writeCompactSize _ bounded, Option.bind_eq_bind, Option.bind_some,
    readMany_flatMap roundTrip values allGood rest]

/-- A vector whose first element does not read back is not read back. -/
theorem readVector_writeVector_head {α : Type} {encode : α → List UInt8} {decode : Decoder α}
    {a : α} {values : List α} (bounded : (a :: values).length ≤ MAX_SIZE)
    (unreadable : ∀ rest, decode (encode a ++ rest) = none) (rest : List UInt8) :
    readVector decode (writeVector encode (a :: values) ++ rest) = none := by
  simp only [writeVector, readVector, List.append_assoc, readCompactSize_writeCompactSize _ bounded,
    Option.bind_eq_bind, Option.bind_some]
  simp only [List.length_cons, List.flatMap_cons, readMany, List.append_assoc, unreadable,
    Option.bind_eq_bind, Option.bind_none]

end MFCoin.Serialize
