/-
Module: MFCoin.Primitives.ArithUint256
Purpose: The 256-bit unsigned integers of src/src/arith_uint256.h as the proof-of-stake
  checks use them, and the compact target encoding in its two versions: the
  `arith_uint256` one (`SetCompact` with its negative and overflow reports, `GetCompact`)
  and the signed `CBigNum` one of src/src/bignum.h that the retargeting computes in.
Trusted boundary: none
Main exports: ArithUint256, ofInt64, toUInt32, toInt64, mulWord, bitLength, bits, getLow64,
  toNat_ofInt64, toNat_toUInt32, toNat_mulWord, Decoded, setCompact, getCompact, bnSetCompact,
  bnGetCompact, setCompact_agree, bnGetCompact_eq_getCompact, setCompact_getCompact,
  getCompact_roundTrip, compactCodecs_agree
-/
import Mathlib.Data.Nat.Log
import Mathlib.Tactic.Ring

namespace MFCoin.Arith

/-- `arith_uint256`: eight 32-bit limbs, read as one 256-bit word; every operation wraps
modulo `2^256`. -/
abbrev ArithUint256 := BitVec 256

/-- `base_uint(uint64_t)` called with an `int64_t` such as a `CAmount`: the implicit
conversion to `uint64_t` first takes the value modulo `2^64`. -/
def ofInt64 (v : Int) : ArithUint256 := BitVec.ofNat 256 (v % 2 ^ 64).toNat

/-- The implicit conversion of an `int64_t` argument to the `uint32_t` that
`operator*(const base_uint&, uint32_t)` takes: overload resolution prefers this standard
conversion to the user-defined one through `base_uint(uint64_t)`. -/
def toUInt32 (v : Int) : UInt32 := UInt32.ofNat (v % 2 ^ 32).toNat

/-- The conversion of a `uint64_t` to `int64_t` (`CAmount`): two's complement. -/
def toInt64 (n : Nat) : Int :=
  let low : Nat := n % 2 ^ 64
  if low < 2 ^ 63 then (low : Int) else (low : Int) - 2 ^ 64

/-- `operator*(const base_uint&, uint32_t)`: the limb loop with carry of `operator*=`,
which keeps the product modulo `2^256`. -/
def mulWord (a : ArithUint256) (b : UInt32) : ArithUint256 := a * BitVec.ofNat 256 b.toNat

/-- The number of binary digits of `n`: `base_uint::bits` and OpenSSL's `BN_num_bits`. -/
def bitLength (n : Nat) : Nat := if n = 0 then 0 else n.log2 + 1

/-- `base_uint::bits`: the position of the highest set bit, plus one. -/
def bits (a : ArithUint256) : Nat := bitLength a.toNat

/-- `base_uint::GetLow64`: the two low limbs. -/
def getLow64 (a : ArithUint256) : Nat := a.toNat % 2 ^ 64

/-! ### Values of the conversions and products -/

theorem toNat_ofInt64 {v : Int} (nonneg : 0 ≤ v) (lt : v < 2 ^ 64) :
    (ofInt64 v).toNat = v.toNat := by
  unfold ofInt64
  rw [Int.emod_eq_of_lt nonneg lt, BitVec.toNat_ofNat]
  apply Nat.mod_eq_of_lt
  omega

theorem toInt64_of_lt {n : Nat} (lt : n < 2 ^ 63) : toInt64 n = n := by
  have low : n % 2 ^ 64 = n := Nat.mod_eq_of_lt (by omega)
  simp only [toInt64, low, if_pos lt]

theorem toNat_toUInt32 {v : Int} (nonneg : 0 ≤ v) (lt : v < 2 ^ 32) :
    (toUInt32 v).toNat = v.toNat := by
  unfold toUInt32
  rw [Int.emod_eq_of_lt nonneg lt, UInt32.toNat_ofNat']
  apply Nat.mod_eq_of_lt
  omega

@[simp] theorem toNat_mulWord (a : ArithUint256) (b : UInt32) :
    (mulWord a b).toNat = a.toNat * b.toNat % 2 ^ 256 := by
  simp [mulWord, BitVec.toNat_mul]

/-! ### The compact encoding of `arith_uint256` -/

/-- What `arith_uint256::SetCompact` leaves: the word, and the reports it writes through
`pfNegative` and `pfOverflow`. -/
structure Decoded where
  value : ArithUint256
  fNegative : Bool
  fOverflow : Bool
deriving DecidableEq, Repr

/-- The mantissa `SetCompact` keeps: the low 23 bits, shifted right for an exponent
below 3. -/
def compactWord (nCompact : UInt32) : Nat :=
  let nSize := nCompact.toNat >>> 24
  let nWord := nCompact.toNat &&& 0x007fffff
  if nSize ≤ 3 then nWord >>> (8 * (3 - nSize)) else nWord

/-- `arith_uint256::SetCompact`. The exponent is the top byte, the sign the bit
`0x00800000`; the word is the mantissa shifted left by whole bytes, and `operator<<=`
drops what passes bit 255. -/
def setCompact (nCompact : UInt32) : Decoded :=
  let nSize := nCompact.toNat >>> 24
  let nWord := compactWord nCompact
  { value := if nSize ≤ 3 then BitVec.ofNat 256 nWord
      else BitVec.ofNat 256 nWord <<< (8 * (nSize - 3))
    fNegative := nWord != 0 && nCompact.toNat &&& 0x00800000 != 0
    fOverflow := nWord != 0 &&
      (nSize > 34 || (nWord > 0xff && nSize > 33) || (nWord > 0xffff && nSize > 32)) }

/-- The sign adjustment both `GetCompact`s end with: a mantissa that would read as
negative moves one byte down and the exponent one up. -/
def normalizeMantissa (nCompact nSize : Nat) : Nat × Nat :=
  if nCompact &&& 0x00800000 ≠ 0 then (nCompact >>> 8, nSize + 1) else (nCompact, nSize)

/-- The three leading bytes of a magnitude of `nSize` bytes, placed as `GetCompact`
places them. -/
def leadingBytes (magnitude nSize : Nat) : Nat :=
  if nSize ≤ 3 then (magnitude <<< (8 * (3 - nSize))) % 2 ^ 32
  else (magnitude >>> (8 * (nSize - 3))) % 2 ^ 32

/-- `arith_uint256::GetCompact` with its default `fNegative = false`, the only way the
retargeting calls it. `GetLow64` of the shifted word, cut to the 32 bits of `nCompact`,
keeps the same bits as the cut of the whole shifted word. -/
def getCompact (a : ArithUint256) : UInt32 :=
  let nSize := (bits a + 7) / 8
  let normal := normalizeMantissa (leadingBytes a.toNat nSize) nSize
  UInt32.ofNat (normal.1 ||| normal.2 <<< 24)

/-! ### The compact encoding of `CBigNum`

`CBigNum` is OpenSSL's arbitrary-precision signed integer, an `Int` here. Its
`SetCompact` shifts without a width, and OpenSSL keeps a zero non-negative. -/

/-- `CBigNum::SetCompact`. -/
def bnSetCompact (nCompact : UInt32) : Int :=
  let nSize := nCompact.toNat >>> 24
  let fNegative := nCompact.toNat &&& 0x00800000 != 0
  let nWord := nCompact.toNat &&& 0x007fffff
  let magnitude : Nat :=
    if nSize ≤ 3 then nWord >>> (8 * (3 - nSize)) else nWord <<< (8 * (nSize - 3))
  if fNegative then -magnitude else magnitude

/-- `CBigNum::GetCompact`: `BN_num_bytes` and `BN_get_word` read the magnitude, and the
sign bit is set for a negative number. -/
def bnGetCompact (bn : Int) : UInt32 :=
  let nSize := (bitLength bn.natAbs + 7) / 8
  let normal := normalizeMantissa (leadingBytes bn.natAbs nSize) nSize
  UInt32.ofNat (normal.1 ||| normal.2 <<< 24 ||| (if bn < 0 then 0x00800000 else 0))

example : getCompact (BitVec.ofNat 256 (2 ^ 252 - 1)) = 0x200fffff := by decide

example : (setCompact 0x200fffff).value.toNat = 0x0fffff * 2 ^ 232 := by decide

/-! ### The fields of a compact word -/

theorem and_two_pow_eq_zero_iff (x i : Nat) : x &&& 2 ^ i = 0 ↔ x.testBit i = false := by
  constructor
  · intro zero
    have bit := congrArg (fun y => y.testBit i) zero
    simpa [Nat.testBit_and, Nat.testBit_two_pow] using bit
  · intro clear
    apply Nat.eq_of_testBit_eq
    intro j
    by_cases same : i = j
    · subst same
      simp [Nat.testBit_and, clear]
    · simp [Nat.testBit_and, same]

/-- Below `2^24`, the sign bit `0x00800000` is set exactly from `2^23` on. -/
theorem signBit_ne_zero_iff {m : Nat} (lt : m < 2 ^ 24) : m &&& 0x00800000 ≠ 0 ↔ 2 ^ 23 ≤ m := by
  rw [show (0x00800000 : Nat) = 2 ^ 23 from rfl, Ne, and_two_pow_eq_zero_iff,
    Nat.testBit_eq_decide_div_mod_eq]
  simp only [decide_eq_false_iff_not, not_not]
  omega

/-- The fields of a compact word: the exponent above bit 24, the mantissa below bit 23, and
the sign bit clear. -/
theorem compact_fields {word e : Nat} (small : word < 2 ^ 23) (exponent : e < 256) :
    (UInt32.ofNat (word ||| e <<< 24)).toNat >>> 24 = e ∧
      (UInt32.ofNat (word ||| e <<< 24)).toNat &&& 0x007fffff = word ∧
      (UInt32.ofNat (word ||| e <<< 24)).toNat &&& 0x00800000 = 0 := by
  have packed : word ||| e <<< 24 = e * 2 ^ 24 + word := by
    rw [Nat.or_comm, ← Nat.shiftLeft_add_eq_or_of_lt (by omega), Nat.shiftLeft_eq]
  have fits : (UInt32.ofNat (word ||| e <<< 24)).toNat = e * 2 ^ 24 + word := by
    rw [UInt32.toNat_ofNat', packed]
    exact Nat.mod_eq_of_lt (by omega)
  rw [fits, show (0x007fffff : Nat) = 2 ^ 23 - 1 from rfl, Nat.and_two_pow_sub_one_eq_mod,
    show (0x00800000 : Nat) = 2 ^ 23 from rfl, and_two_pow_eq_zero_iff,
    Nat.testBit_eq_decide_div_mod_eq, Nat.shiftRight_eq_div_pow]
  refine ⟨by omega, by omega, ?_⟩
  simp only [decide_eq_false_iff_not]
  omega


/-- The magnitude both `SetCompact`s compute before any width applies: the mantissa
shifted by the exponent's whole bytes. -/
def compactMagnitude (nCompact : UInt32) : Nat :=
  let nSize := nCompact.toNat >>> 24
  if nSize ≤ 3 then compactWord nCompact else compactWord nCompact * 256 ^ (nSize - 3)

theorem two_pow_eight_mul (k : Nat) : 2 ^ (8 * k) = 256 ^ k := by
  rw [Nat.pow_mul]

/-- `arith_uint256::SetCompact` keeps the magnitude modulo `2^256`. -/
theorem setCompact_value_toNat (nCompact : UInt32) :
    (setCompact nCompact).value.toNat = compactMagnitude nCompact % 2 ^ 256 := by
  unfold setCompact compactMagnitude
  by_cases low : nCompact.toNat >>> 24 ≤ 3
  · simp only [if_pos low, BitVec.toNat_ofNat]
  · simp only [if_neg low, BitVec.toNat_shiftLeft, BitVec.toNat_ofNat, Nat.shiftLeft_eq,
      two_pow_eight_mul, Nat.mod_mul_mod]

/-- `CBigNum::SetCompact` is the magnitude with the sign bit as its sign. -/
theorem bnSetCompact_eq (nCompact : UInt32) :
    bnSetCompact nCompact = if nCompact.toNat &&& 0x00800000 != 0 then -(compactMagnitude nCompact : Int)
      else (compactMagnitude nCompact : Int) := by
  unfold bnSetCompact compactMagnitude compactWord
  by_cases low : nCompact.toNat >>> 24 ≤ 3
  · simp only [if_pos low]
  · simp only [if_neg low, Nat.shiftLeft_eq, two_pow_eight_mul]

/-- A mantissa below `2^23` shifted by the exponents `SetCompact` does not report as an
overflow stays below `2^256`. -/
theorem shifted_mantissa_lt {word e : Nat} (small : word < 2 ^ 23) (e34 : e ≤ 34)
    (e33 : 0xff < word → e ≤ 33) (e32 : 0xffff < word → e ≤ 32) : word * 256 ^ (e - 3) < 2 ^ 256 := by
  rcases (show e ≤ 32 ∨ e = 33 ∨ e = 34 by omega) with low | rfl | rfl
  · calc word * 256 ^ (e - 3) ≤ word * 256 ^ 29 :=
          Nat.mul_le_mul_left _ (Nat.pow_le_pow_right (by decide) (by omega))
      _ < 2 ^ 256 := by omega
  · have := e32
    omega
  · have := e33
    have := e32
    omega

/-- Without an overflow report the magnitude fits the 256 bits. -/
theorem compactMagnitude_lt {nCompact : UInt32} (fits : (setCompact nCompact).fOverflow = false) :
    compactMagnitude nCompact < 2 ^ 256 := by
  have mantissa : nCompact.toNat &&& 0x007fffff < 2 ^ 23 := Nat.and_lt_two_pow _ (by decide)
  unfold compactMagnitude
  dsimp only
  by_cases low : nCompact.toNat >>> 24 ≤ 3
  · have shifted : compactWord nCompact ≤ nCompact.toNat &&& 0x007fffff := by
      simp only [compactWord, if_pos low]
      exact Nat.shiftRight_le _ _
    rw [if_pos low]
    omega
  · have word : compactWord nCompact = nCompact.toNat &&& 0x007fffff := by
      simp only [compactWord, if_neg low]
    rw [if_neg low, word]
    simp only [setCompact, word, Bool.and_eq_false_iff, bne_eq_false_iff_eq, Bool.or_eq_false_iff,
      decide_eq_false_iff_not] at fits
    rcases fits with zero | ⟨⟨e34, e33⟩, e32⟩
    · rw [zero, Nat.zero_mul]
      exact Nat.two_pow_pos 256
    · exact shifted_mantissa_lt mantissa (by omega) (fun big => by omega) (fun big => by omega)


/-- Both `SetCompact`s agree wherever `arith_uint256` reports neither a negative number nor
an overflow. -/
theorem setCompact_agree (nCompact : UInt32) (positive : (setCompact nCompact).fNegative = false)
    (fits : (setCompact nCompact).fOverflow = false) :
    bnSetCompact nCompact = (setCompact nCompact).value.toNat := by
  rw [bnSetCompact_eq, setCompact_value_toNat, Nat.mod_eq_of_lt (compactMagnitude_lt fits)]
  simp only [setCompact, Bool.and_eq_false_iff, bne_eq_false_iff_eq] at positive
  rcases positive with zero | clear
  · -- a zero mantissa: the sign bit has nothing to negate
    have none : compactMagnitude nCompact = 0 := by
      simp [compactMagnitude, zero]
    simp [none]
  · simp [clear]

/-- Both `GetCompact`s agree on the non-negative numbers of 256 bits. -/
theorem bnGetCompact_eq_getCompact {x : Nat} (lt : x < 2 ^ 256) :
    bnGetCompact x = getCompact (BitVec.ofNat 256 x) := by
  have nonneg : ¬(x : Int) < 0 := by omega
  simp only [bnGetCompact, getCompact, bits, BitVec.toNat_ofNat, Nat.mod_eq_of_lt lt, Int.natAbs_natCast,
    nonneg, if_false, Nat.or_zero]

/-! ### What a round trip through the compact encoding keeps -/

theorem lt_two_pow_bitLength (n : Nat) : n < 2 ^ bitLength n := by
  unfold bitLength
  split
  · simp_all
  · exact Nat.lt_log2_self

theorem bitLength_le {n k : Nat} (lt : n < 2 ^ k) : bitLength n ≤ k := by
  unfold bitLength
  split
  · omega
  · rename_i nonzero
    have := (Nat.log2_lt nonzero).mpr lt
    omega

/-- A number has at most as many bytes as `GetCompact` counts. -/
theorem lt_pow_byteLength (x : Nat) : x < 256 ^ ((bitLength x + 7) / 8) :=
  calc x < 2 ^ bitLength x := lt_two_pow_bitLength x
    _ ≤ 2 ^ (8 * ((bitLength x + 7) / 8)) := Nat.pow_le_pow_right (by decide) (by omega)
    _ = 256 ^ ((bitLength x + 7) / 8) := two_pow_eight_mul _

/-- The three leading bytes of a number of at most `nSize` bytes: the number moved up or
down by whole bytes, below `2^24`. -/
theorem leadingBytes_eq {x nSize : Nat} (lt : x < 256 ^ nSize) :
    leadingBytes x nSize = x * 256 ^ (3 - nSize) / 256 ^ (nSize - 3) ∧
      x * 256 ^ (3 - nSize) / 256 ^ (nSize - 3) < 2 ^ 24 := by
  unfold leadingBytes
  by_cases low : nSize ≤ 3
  · have up : x * 256 ^ (3 - nSize) < 2 ^ 24 :=
      calc x * 256 ^ (3 - nSize) < 256 ^ nSize * 256 ^ (3 - nSize) :=
            Nat.mul_lt_mul_of_pos_right lt (Nat.pow_pos (by decide))
        _ = 2 ^ 24 := by rw [← Nat.pow_add, Nat.add_sub_cancel' low]; rfl
    rw [if_pos low, Nat.shiftLeft_eq, two_pow_eight_mul, show nSize - 3 = 0 by omega, Nat.pow_zero,
      Nat.div_one, Nat.mod_eq_of_lt (by omega)]
    exact ⟨rfl, up⟩
  · have down : x / 256 ^ (nSize - 3) < 2 ^ 24 := by
      rw [Nat.div_lt_iff_lt_mul (Nat.pow_pos (by decide))]
      calc x < 256 ^ nSize := lt
        _ = 2 ^ 24 * 256 ^ (nSize - 3) := by
          rw [show (2 : Nat) ^ 24 = 256 ^ 3 from rfl, ← Nat.pow_add, Nat.add_sub_cancel' (by omega)]
    rw [if_neg low, Nat.shiftRight_eq_div_pow, two_pow_eight_mul, show 3 - nSize = 0 by omega,
      Nat.pow_zero, Nat.mul_one, Nat.mod_eq_of_lt (by omega)]
    exact ⟨rfl, down⟩

/-- The sign adjustment either keeps a mantissa below `2^23`, or moves one from `2^23` on a
byte down. -/
theorem normalizeMantissa_cases {m : Nat} (lt : m < 2 ^ 24) (nSize : Nat) :
    (m < 2 ^ 23 ∧ normalizeMantissa m nSize = (m, nSize)) ∨
      (2 ^ 23 ≤ m ∧ normalizeMantissa m nSize = (m / 256, nSize + 1)) := by
  unfold normalizeMantissa
  by_cases sign : m &&& 0x00800000 ≠ 0
  · exact Or.inr ⟨(signBit_ne_zero_iff lt).mp sign, by rw [if_pos sign, Nat.shiftRight_eq_div_pow]⟩
  · have small : m < 2 ^ 23 := by
      have := mt (signBit_ne_zero_iff lt).mpr sign
      omega
    exact Or.inl ⟨small, if_neg sign⟩

/-- The magnitude of a compact word with its sign bit clear. -/
theorem compactMagnitude_pack {word e : Nat} (small : word < 2 ^ 23) (exponent : e < 256) :
    compactMagnitude (UInt32.ofNat (word ||| e <<< 24)) =
      if e ≤ 3 then word / 256 ^ (3 - e) else word * 256 ^ (e - 3) := by
  obtain ⟨exp, mant, -⟩ := compact_fields small exponent
  simp only [compactMagnitude, compactWord, exp, mant]
  by_cases low : e ≤ 3
  · simp [low, Nat.shiftRight_eq_div_pow, two_pow_eight_mul]
  · simp [low]


/-- `x` with its `k` low bytes cleared. -/
def clearLowBytes (x k : Nat) : Nat := x / 256 ^ k * 256 ^ k

theorem clearLowBytes_le (x k : Nat) : clearLowBytes x k ≤ x := Nat.div_mul_le_self x _

theorem lt_clearLowBytes_add (x k : Nat) : x < clearLowBytes x k + 256 ^ k :=
  Nat.lt_div_mul_add (Nat.pow_pos (by decide))

/-- A mantissa kept as it is: the exponent is the byte count, and the bytes below the three
leading ones are lost. -/
theorem decode_kept (x nSize : Nat) :
    (if nSize ≤ 3 then x * 256 ^ (3 - nSize) / 256 ^ (nSize - 3) / 256 ^ (3 - nSize)
      else x * 256 ^ (3 - nSize) / 256 ^ (nSize - 3) * 256 ^ (nSize - 3)) =
      clearLowBytes x (nSize - 3) := by
  by_cases low : nSize ≤ 3
  · rw [if_pos low, show nSize - 3 = 0 by omega, Nat.pow_zero, Nat.div_one,
      Nat.mul_div_cancel _ (Nat.pow_pos (by decide))]
    simp [clearLowBytes]
  · rw [if_neg low, show 3 - nSize = 0 by omega, Nat.pow_zero, Nat.mul_one]
    rfl

/-- A mantissa moved a byte down: the exponent is one more than the byte count, and one
more byte is lost. -/
theorem decode_moved (x nSize : Nat) :
    (if nSize + 1 ≤ 3 then x * 256 ^ (3 - nSize) / 256 ^ (nSize - 3) / 256 / 256 ^ (3 - (nSize + 1))
      else x * 256 ^ (3 - nSize) / 256 ^ (nSize - 3) / 256 * 256 ^ (nSize + 1 - 3)) =
      clearLowBytes x (nSize + 1 - 3) := by
  by_cases low : nSize + 1 ≤ 3
  · have bytes : 256 * 256 ^ (3 - (nSize + 1)) = 256 ^ (3 - nSize) := by
      rw [← pow_succ', show 3 - (nSize + 1) + 1 = 3 - nSize by omega]
    rw [if_pos low, show nSize - 3 = 0 by omega, Nat.pow_zero, Nat.div_one, Nat.div_div_eq_div_mul,
      bytes, Nat.mul_div_cancel _ (Nat.pow_pos (by decide)), show nSize + 1 - 3 = 0 by omega]
    simp [clearLowBytes]
  · rw [if_neg low, show 3 - nSize = 0 by omega, Nat.pow_zero, Nat.mul_one, Nat.div_div_eq_div_mul,
      ← pow_succ, show nSize - 3 + 1 = nSize + 1 - 3 by omega]
    rfl

/-- `GetCompact` of a number of 256 bits is a compact word with its sign bit clear, a
mantissa below `2^23` and an exponent of at most 33 (at most 32 past a two-byte
mantissa); the magnitude it encodes is the number with the bytes below its exponent's
cleared, at most all but its two leading ones. -/
theorem getCompact_pack {x : Nat} (lt : x < 2 ^ 256) :
    ∃ word e, getCompact (BitVec.ofNat 256 x) = UInt32.ofNat (word ||| e <<< 24) ∧ word < 2 ^ 23 ∧
      e ≤ 33 ∧ (0xffff < word → e ≤ 32) ∧ e - 3 ≤ (bitLength x + 7) / 8 - 2 ∧
      (if e ≤ 3 then word / 256 ^ (3 - e) else word * 256 ^ (e - 3)) = clearLowBytes x (e - 3) := by
  have size : x < 256 ^ ((bitLength x + 7) / 8) := lt_pow_byteLength x
  have bytes : (bitLength x + 7) / 8 ≤ 32 := by
    have := bitLength_le lt
    omega
  obtain ⟨lead, leadLt⟩ := leadingBytes_eq size
  have unfolded : getCompact (BitVec.ofNat 256 x) =
      UInt32.ofNat ((normalizeMantissa (leadingBytes x ((bitLength x + 7) / 8)) ((bitLength x + 7) / 8)).1 |||
        (normalizeMantissa (leadingBytes x ((bitLength x + 7) / 8)) ((bitLength x + 7) / 8)).2 <<< 24) := by
    simp only [getCompact, bits, BitVec.toNat_ofNat, Nat.mod_eq_of_lt lt]
  rw [lead] at unfolded
  rcases normalizeMantissa_cases leadLt ((bitLength x + 7) / 8) with ⟨small, kept⟩ | ⟨big, moved⟩
  · rw [kept] at unfolded
    exact ⟨_, _, unfolded, small, by omega, fun _ => by omega, by omega, decode_kept x _⟩
  · rw [moved] at unfolded
    exact ⟨_, _, unfolded, by omega, by omega, fun _ => by omega, by omega, decode_moved x _⟩


/-- `arith_uint256::SetCompact` of what `GetCompact` writes reports neither a negative number
nor an overflow, and gives the number with the bytes below the exponent's cleared. -/
theorem setCompact_getCompact {x : Nat} (lt : x < 2 ^ 256) :
    setCompact (getCompact (BitVec.ofNat 256 x)) =
      ⟨BitVec.ofNat 256 (clearLowBytes x ((getCompact (BitVec.ofNat 256 x)).toNat >>> 24 - 3)), false,
        false⟩ := by
  obtain ⟨word, e, packed, small, e33, e32, -, magnitude⟩ := getCompact_pack lt
  have decoded := compactMagnitude_pack small (by omega : e < 256)
  obtain ⟨exp, mant, sign⟩ := compact_fields small (by omega : e < 256)
  rw [packed]
  generalize UInt32.ofNat (word ||| e <<< 24) = nCompact at exp mant sign decoded
  rw [exp]
  have value : (setCompact nCompact).value = BitVec.ofNat 256 (clearLowBytes x (e - 3)) := by
    apply BitVec.eq_of_toNat_eq
    rw [setCompact_value_toNat, decoded, magnitude, BitVec.toNat_ofNat]
  have positive : (setCompact nCompact).fNegative = false := by
    simp [setCompact, sign]
  have fits : (setCompact nCompact).fOverflow = false := by
    by_cases low : e ≤ 3
    · simp [setCompact, exp]
      omega
    · simp only [setCompact, compactWord, exp, mant, if_neg low, Bool.and_eq_false_iff,
        bne_eq_false_iff_eq, Bool.or_eq_false_iff, decide_eq_false_iff_not]
      omega
  calc setCompact nCompact
      = ⟨(setCompact nCompact).value, (setCompact nCompact).fNegative,
          (setCompact nCompact).fOverflow⟩ := rfl
    _ = _ := by rw [value, positive, fits]

/-- Where `GetCompact` moves the mantissa a byte down, the round trip loses the whole third
byte: `0x800001` has three bytes, and comes back as `0x800000`. -/
theorem setCompact_getCompact_signMoved :
    getCompact (BitVec.ofNat 256 0x800001) = 0x04008000 ∧
      (setCompact 0x04008000).value.toNat = 0x800000 ∧ bnSetCompact 0x04008000 = 0x800000 ∧
      (bitLength 0x800001 + 7) / 8 = 3 ∧
      ¬0x800001 < 0x800000 + 256 ^ ((bitLength 0x800001 + 7) / 8 - 3) := by
  decide

/-- The exponent `GetCompact` writes clears at most all but the two leading bytes. -/
theorem getCompact_shift_le {x : Nat} (lt : x < 2 ^ 256) :
    (getCompact (BitVec.ofNat 256 x)).toNat >>> 24 - 3 ≤ (bitLength x + 7) / 8 - 2 := by
  obtain ⟨word, e, packed, small, e33, -, shift, -⟩ := getCompact_pack lt
  rw [packed, (compact_fields small (by omega : e < 256)).1]
  exact shift


/-- Both decoders give back what `GetCompact` wrote with the bytes below its exponent
cleared, with no report; at most all but the two leading bytes are lost. -/
theorem getCompact_roundTrip {x : Nat} (lt : x < 2 ^ 256) :
    bnSetCompact (getCompact (BitVec.ofNat 256 x)) =
        clearLowBytes x ((getCompact (BitVec.ofNat 256 x)).toNat >>> 24 - 3) ∧
      x < clearLowBytes x ((getCompact (BitVec.ofNat 256 x)).toNat >>> 24 - 3) +
        256 ^ ((bitLength x + 7) / 8 - 2) := by
  have decoded := setCompact_getCompact lt
  have kept := clearLowBytes_le x ((getCompact (BitVec.ofNat 256 x)).toNat >>> 24 - 3)
  have agree := setCompact_agree (getCompact (BitVec.ofNat 256 x)) (by rw [decoded]) (by rw [decoded])
  rw [decoded, BitVec.toNat_ofNat, Nat.mod_eq_of_lt (by omega)] at agree
  refine ⟨agree, ?_⟩
  calc x < clearLowBytes x ((getCompact (BitVec.ofNat 256 x)).toNat >>> 24 - 3) +
        256 ^ ((getCompact (BitVec.ofNat 256 x)).toNat >>> 24 - 3) := lt_clearLowBytes_add _ _
    _ ≤ _ := Nat.add_le_add_left (Nat.pow_le_pow_right (by decide) (getCompact_shift_le lt)) _

/-- The two compact codecs agree and round-trip: both `GetCompact`s agree on the numbers of
256 bits; both `SetCompact`s decode what they write to the same number, without a report,
which is the number with the bytes below the exponent cleared: all but its two or three
leading bytes; and both `SetCompact`s agree on every compact word that `arith_uint256`
reads as neither negative nor overflowing. -/
theorem compactCodecs_agree :
    (∀ x : Nat, x < 2 ^ 256 → bnGetCompact x = getCompact (BitVec.ofNat 256 x)) ∧
    (∀ x : Nat, x < 2 ^ 256 →
      setCompact (getCompact (BitVec.ofNat 256 x)) =
          ⟨BitVec.ofNat 256 (clearLowBytes x ((getCompact (BitVec.ofNat 256 x)).toNat >>> 24 - 3)),
            false, false⟩ ∧
        bnSetCompact (getCompact (BitVec.ofNat 256 x)) =
          clearLowBytes x ((getCompact (BitVec.ofNat 256 x)).toNat >>> 24 - 3) ∧
        clearLowBytes x ((getCompact (BitVec.ofNat 256 x)).toNat >>> 24 - 3) ≤ x ∧
        x < clearLowBytes x ((getCompact (BitVec.ofNat 256 x)).toNat >>> 24 - 3) +
          256 ^ ((bitLength x + 7) / 8 - 2)) ∧
    (∀ nCompact : UInt32, (setCompact nCompact).fNegative = false →
      (setCompact nCompact).fOverflow = false →
        bnSetCompact nCompact = (setCompact nCompact).value.toNat) := by
  refine ⟨fun _ lt => bnGetCompact_eq_getCompact lt, fun x lt => ?_, setCompact_agree⟩
  obtain ⟨agree, within⟩ := getCompact_roundTrip lt
  exact ⟨setCompact_getCompact lt, agree, clearLowBytes_le _ _, within⟩

/-- The three parts at the number whose round trip moves the mantissa. -/
theorem compactCodecs_agree_signMoved :
    ((0x800001 : Nat) < 2 ^ 256 ∧ bnGetCompact ((0x800001 : Nat) : Int) = getCompact (BitVec.ofNat 256 0x800001)) ∧
      ((0x800001 : Nat) < 2 ^ 256 ∧ bnSetCompact (getCompact (BitVec.ofNat 256 0x800001)) =
        clearLowBytes 0x800001 ((getCompact (BitVec.ofNat 256 0x800001)).toNat >>> 24 - 3)) ∧
      ((setCompact 0x04008000).fNegative = false ∧ (setCompact 0x04008000).fOverflow = false ∧
        bnSetCompact 0x04008000 = (setCompact 0x04008000).value.toNat) :=
  ⟨⟨by decide, compactCodecs_agree.1 0x800001 (by decide)⟩,
    ⟨by decide, (compactCodecs_agree.2.1 0x800001 (by decide)).2.1⟩,
    ⟨by decide, by decide, compactCodecs_agree.2.2 0x04008000 (by decide) (by decide)⟩⟩

end MFCoin.Arith
