/-
Module: MFCoin.Encoding.Base58
Purpose: `EncodeBase58` and `DecodeBase58` (src/src/base58.cpp): schoolbook conversions
  between big-endian base 256 and base 58 in a buffer sized by a rounded ratio of
  logarithms, leading zero bytes written as leading `1`s. The buffers suffice at every
  length whose `int` size does not wrap, so `assert(carry == 0)` holds there, and the two
  conversions are inverse: bytes come back from their string, and a string of base58 digits
  comes back from its bytes. At a length where the size wraps to zero, the assertion fails.
Trusted boundary: none
Main exports: pszBase58, mulAddDigits, convertDigits, encodeBase58, decodeBase58,
  encodeBase58_eq, decodeBase58_eq, base58_roundTrip
-/
import MFCoin.Lib.Radix
import MFCoin.Lib.ExceptRun
import Mathlib.Data.List.TakeWhile

namespace MFCoin.Encoding

/-! ### The source's data -/

/-- A character as the byte of its code. -/
def char (c : Char) : UInt8 := c.toNat.toUInt8

/-- `pszBase58`: all alphanumeric characters except `0`, `I`, `O` and `l`. -/
def pszBase58 : List UInt8 :=
  "123456789ABCDEFGHJKLMNPQRSTUVWXYZabcdefghijkmnopqrstuvwxyz".toList.map char

/-- `isspace` in the C locale: space, `\t`, `\n`, `\v`, `\f` and `\r`. -/
def isSpace (c : UInt8) : Bool := c == 0x20 || (0x09 ≤ c && c ≤ 0x0D)

/-- An `int` computed from a wider count: its low 32 bits, read as two's complement. -/
def toInt32 (n : Nat) : Int := if n % 2 ^ 32 < 2 ^ 31 then (n % 2 ^ 32 : Nat) else (n % 2 ^ 32 : Nat) - 2 ^ 32

/-- How a conversion stops without a result: `assert(carry == 0)` fails, or a negative
buffer size makes `std::vector` throw. -/
inductive Abort where
  | carry
  | length
deriving DecidableEq, Repr

/-! ### The conversion loops -/

/-- The inner loop of both conversions, `b = b * mult + carry`, over a big-endian buffer
walked from its end (`reverse_iterator`): `digits` is the buffer from its last digit, `i`
the number of digits walked. The walk goes on while there is a carry or it is among the
`length` digits in use, and stops at the buffer's start. It returns the buffer, the carry
left and the number of digits walked. -/
def mulAddDigits (base mult : Nat) : List Nat → Nat → Nat → Nat → List Nat × Nat × Nat
  | [], carry, i, _ => ([], carry, i)
  | d :: digits, carry, i, length =>
    if carry ≠ 0 ∨ i < length then
      let carry := carry + mult * d
      let (digits, carryLeft, walked) := mulAddDigits base mult digits (carry / base) (i + 1) length
      (carry % base :: digits, carryLeft, walked)
    else (d :: digits, carry, i)

/-- The outer loop of both conversions: each symbol's digit is multiplied in, and
`length = i` digits are in use after it. A symbol without a digit stops it (`return false`
in `DecodeBase58`). -/
def convertDigits {α : Type} (base mult : Nat) (digitOf : α → Option Nat) :
    List α → List Nat → Nat → Except Abort (Option (List Nat × Nat))
  | [], buffer, length => pure (some (buffer, length))
  | c :: cs, buffer, length =>
    match digitOf c with
    | none => pure none
    | some d =>
      let (buffer, carry, i) := mulAddDigits base mult buffer d 0 length
      if carry ≠ 0 then throw Abort.carry else convertDigits base mult digitOf cs buffer i

/-- The digits in use, most significant first, without leading zeros: from
`b.begin() + (size - length)`, zeros skipped. -/
def usedDigits (buffer : List Nat) (length : Nat) : List Nat :=
  ((buffer.take length).reverse).dropWhile (· == 0)

/-- `EncodeBase58(vch)`. -/
def encodeBase58 (input : List UInt8) : Except Abort (List UInt8) := do
  -- Skip & count leading zeroes.
  let zeroes := (input.takeWhile (· == 0)).length
  let bytes := input.dropWhile (· == 0)
  -- `int size = (pend - pbegin) * 138 / 100 + 1`
  let size := toInt32 (bytes.length * 138 / 100 + 1)
  if size < 0 then throw Abort.length
  match ← convertDigits 58 256 (fun byte : UInt8 => some byte.toNat) bytes
      (List.replicate size.toNat 0) 0 with
  | none => pure []
  | some (b58, length) =>
    pure (List.replicate zeroes (char '1') ++ (usedDigits b58 length).map fun d => pszBase58.getD d 0)

/-- `DecodeBase58(str, vch)`: `none` where it returns `false`. -/
def decodeBase58 (str : List UInt8) : Except Abort (Option (List UInt8)) := do
  -- `str.c_str()`
  let psz := str.takeWhile (· != 0)
  -- Skip leading spaces.
  let psz := psz.dropWhile isSpace
  -- Skip and count leading '1's.
  let zeroes := (psz.takeWhile (· == char '1')).length
  let psz := psz.dropWhile (· == char '1')
  -- `int size = strlen(psz) * 733 /1000 + 1`
  let size := toInt32 (psz.length * 733 / 1000 + 1)
  if size < 0 then throw Abort.length
  match ← convertDigits 256 58 (fun c => pszBase58.idxOf? c) (psz.takeWhile (! isSpace ·))
      (List.replicate size.toNat 0) 0 with
  | none => pure none
  | some (b256, length) =>
    -- Skip trailing spaces; anything else after the digits fails.
    if ((psz.dropWhile (! isSpace ·)).dropWhile isSpace).isEmpty then
      pure (some (List.replicate zeroes 0 ++ (usedDigits b256 length).map Nat.toUInt8))
    else pure none

/-! ### The alphabet -/

theorem length_pszBase58 : pszBase58.length = 58 := by decide

/-- A digit's character gives the digit back: the 58 characters are distinct. -/
theorem idxOf?_pszBase58 : ∀ d < 58, pszBase58.idxOf? (pszBase58.getD d 0) = some d := by
  decide

set_option maxRecDepth 2048 in
/-- No character of the alphabet ends a C string or is a space. -/
theorem pszBase58_plain : ∀ c ∈ pszBase58, c ≠ 0 ∧ isSpace c = false := by decide

/-- Digit `0` is written `1`, and no other digit is. -/
theorem pszBase58_one : ∀ d < 58, (pszBase58.getD d 0 = char '1' ↔ d = 0) := by decide

theorem idxOf?_pszBase58_some {c : UInt8} {d : Nat} (found : pszBase58.idxOf? c = some d) :
    d < 58 ∧ pszBase58.getD d 0 = c := by
  obtain ⟨inside, at_d, -⟩ := List.idxOf?_eq_some_iff.mp found
  refine ⟨length_pszBase58 ▸ inside, ?_⟩
  rw [List.getD_eq_getElem?_getD, List.getElem?_eq_getElem inside, Option.getD_some, at_d]

/-! ### One digit multiplied in -/

/-- What a walk of `mulAddDigits` does, from the `i`-th digit of the buffer on. -/
structure Walk (base mult : Nat) (digits : List Nat) (carry i length : Nat)
    (r : List Nat × Nat × Nat) : Prop where
  length_eq : r.1.length = digits.length
  lt : ∀ d ∈ r.1, d < base
  walked : i ≤ r.2.2 ∧ r.2.2 ≤ i + digits.length
  covers : length ≤ r.2.2 ∨ r.2.2 = i + digits.length
  unused : ∀ j (h : j < r.1.length), r.2.2 ≤ i + j → r.1[j] = 0
  value : Nat.ofDigits base r.1 + r.2.1 * base ^ digits.length = Nat.ofDigits base digits * mult + carry

/-- The inner loop multiplies the number in the buffer and adds the carry, the carry left
over counting at the buffer's full width; digits past those walked stay zero. -/
theorem mulAddDigits_walk {base : Nat} (mult : Nat) (hb : 0 < base) :
    ∀ (digits : List Nat) (carry i length : Nat), (∀ d ∈ digits, d < base) →
      (∀ j (h : j < digits.length), length ≤ i + j → digits[j] = 0) →
      Walk base mult digits carry i length (mulAddDigits base mult digits carry i length)
  | [], carry, i, length, _, _ => ⟨rfl, by simp [mulAddDigits], by simp [mulAddDigits],
      Or.inr (by simp [mulAddDigits]), by simp [mulAddDigits], by simp [mulAddDigits]⟩
  | d :: digits, carry, i, length, lt, unused => by
    by_cases walking : carry ≠ 0 ∨ i < length
    · -- the digit takes the carry, and the walk goes on with the quotient
      have rest := mulAddDigits_walk mult hb digits ((carry + mult * d) / base) (i + 1) length
        (fun e mem => lt e (List.mem_cons_of_mem d mem))
        (fun j h past => by
          have zero := unused (j + 1) (by rw [List.length_cons]; omega) (by omega)
          rwa [List.getElem_cons_succ] at zero)
      generalize walkedRest : mulAddDigits base mult digits ((carry + mult * d) / base) (i + 1)
        length = r at rest
      obtain ⟨digits', carryLeft, walked⟩ := r
      obtain ⟨length_eq, below, ⟨low, high⟩, covers, zeros, value⟩ := rest
      dsimp only at length_eq below low high covers zeros value
      have step : mulAddDigits base mult (d :: digits) carry i length =
          ((carry + mult * d) % base :: digits', carryLeft, walked) := by
        simp only [mulAddDigits, walking, if_true, walkedRest]
      rw [step]
      refine ⟨?_, ?_, ?_, ?_, ?_, ?_⟩ <;> dsimp only
      · simp [length_eq]
      · intro e mem
        rcases List.mem_cons.mp mem with rfl | mem
        · exact Nat.mod_lt _ hb
        · exact below e mem
      · rw [List.length_cons]
        omega
      · rw [List.length_cons]
        omega
      · intro j h past
        cases j with
        | zero => omega
        | succ j =>
          rw [List.getElem_cons_succ]
          exact zeros j (by simpa using h) (by omega)
      · -- the digit and the quotient put back together
        have split := Nat.mod_add_div (carry + mult * d) base
        rw [Nat.ofDigits_cons, Nat.ofDigits_cons, List.length_cons, pow_succ]
        calc (carry + mult * d) % base + base * Nat.ofDigits base digits' +
              carryLeft * (base ^ digits.length * base)
            = (carry + mult * d) % base +
                base * (Nat.ofDigits base digits' + carryLeft * base ^ digits.length) := by ring
          _ = (d + base * Nat.ofDigits base digits) * mult + carry := by
            rw [value]
            nlinarith [split]
    · -- the walk stops: no carry, and the rest of the buffer is unused, so zero
      have stop : mulAddDigits base mult (d :: digits) carry i length = (d :: digits, carry, i) := by
        simp only [mulAddDigits, walking, if_false]
      push Not at walking
      obtain ⟨noCarry, past⟩ := walking
      have allZero : ∀ e ∈ d :: digits, e = 0 := by
        intro e mem
        obtain ⟨j, h, rfl⟩ := List.getElem_of_mem mem
        exact unused j h (by omega)
      rw [stop]
      refine ⟨rfl, lt, ?_, Or.inl past, fun j h _ => unused j h (by omega), ?_⟩ <;> dsimp only
      · omega
      · simp [Radix.ofDigits_eq_zero base allZero, noCarry]

/-! ### The buffer -/

/-- A conversion buffer, from its last digit: digits below the base, of which the first
`length` are in use and the others zero. -/
structure Buffer (base length : Nat) (buffer : List Nat) : Prop where
  lt : ∀ d ∈ buffer, d < base
  used : length ≤ buffer.length
  unused : ∀ j (h : j < buffer.length), length ≤ j → buffer[j] = 0

theorem Buffer.zeros {base : Nat} (hb : 0 < base) (size : Nat) : Buffer base 0 (List.replicate size 0) where
  lt := fun _ mem => (List.eq_of_mem_replicate mem) ▸ hb
  used := Nat.zero_le _
  unused := fun _ _ _ => List.getElem_replicate _

/-- One digit multiplied into a buffer with room for it and `k` more: no carry is left, and
the buffer holds the number times `mult` plus the digit. -/
theorem mulAddDigits_step {base mult length d k : Nat} {buffer : List Nat} (hb : 0 < base)
    (inv : Buffer base length buffer) (digit : d < mult)
    (room : (Nat.ofDigits base buffer + 1) * mult ^ (k + 1) ≤ base ^ buffer.length) :
    (mulAddDigits base mult buffer d 0 length).2.1 = 0 ∧
      (mulAddDigits base mult buffer d 0 length).1.length = buffer.length ∧
      Buffer base (mulAddDigits base mult buffer d 0 length).2.2
        (mulAddDigits base mult buffer d 0 length).1 ∧
      Nat.ofDigits base (mulAddDigits base mult buffer d 0 length).1 =
        Nat.ofDigits base buffer * mult + d ∧
      (Nat.ofDigits base (mulAddDigits base mult buffer d 0 length).1 + 1) * mult ^ k ≤
        base ^ (mulAddDigits base mult buffer d 0 length).1.length := by
  have walk := mulAddDigits_walk mult hb buffer d 0 length inv.lt
    (fun j h past => inv.unused j h (by omega))
  generalize mulAddDigits base mult buffer d 0 length = r at walk ⊢
  obtain ⟨buffer', carry, i⟩ := r
  obtain ⟨length_eq, below, ⟨-, walked⟩, -, zeros, value⟩ := walk
  dsimp only at length_eq below walked zeros value ⊢
  -- the new number fits the buffer, so nothing is carried out of it
  have grows : Nat.ofDigits base buffer * mult + d + 1 ≤ (Nat.ofDigits base buffer + 1) * mult := by
    rw [Nat.add_mul, Nat.one_mul]
    omega
  have fits : Nat.ofDigits base buffer * mult + d < base ^ buffer.length :=
    calc Nat.ofDigits base buffer * mult + d < (Nat.ofDigits base buffer + 1) * mult := by omega
      _ ≤ (Nat.ofDigits base buffer + 1) * mult ^ (k + 1) :=
        Nat.mul_le_mul_left _ (Nat.le_self_pow (by omega) mult)
      _ ≤ base ^ buffer.length := room
  have noCarry : carry = 0 := by
    by_contra positive
    have : base ^ buffer.length ≤ carry * base ^ buffer.length :=
      Nat.le_mul_of_pos_left _ (Nat.pos_of_ne_zero positive)
    omega
  subst noCarry
  refine ⟨rfl, length_eq, ⟨below, by omega, fun j h past => zeros j h (by omega)⟩, by simpa using value, ?_⟩
  rw [length_eq, (by simpa using value : Nat.ofDigits base buffer' = Nat.ofDigits base buffer * mult + d)]
  calc (Nat.ofDigits base buffer * mult + d + 1) * mult ^ k
      ≤ (Nat.ofDigits base buffer + 1) * mult * mult ^ k := Nat.mul_le_mul_right _ grows
    _ = (Nat.ofDigits base buffer + 1) * mult ^ (k + 1) := by ring
    _ ≤ base ^ buffer.length := room

/-! ### The outer loop -/

/-- A buffer with room for the whole input takes every digit in without an abort; it holds
the number the buffer held, shifted past the input's digits, plus the number they denote. -/
theorem convertDigits_valid {α : Type} {base mult : Nat} (hb : 0 < base) (digitOf : α → Option Nat) :
    ∀ (cs : List α) (ds : List Nat), cs.map digitOf = ds.map some → (∀ d ∈ ds, d < mult) →
      ∀ (buffer : List Nat) (length : Nat), Buffer base length buffer →
      (Nat.ofDigits base buffer + 1) * mult ^ cs.length ≤ base ^ buffer.length →
      ∃ buffer' length', convertDigits base mult digitOf cs buffer length = .ok (some (buffer', length')) ∧
        buffer'.length = buffer.length ∧ Buffer base length' buffer' ∧
        Nat.ofDigits base buffer' = Nat.ofDigits base buffer * mult ^ cs.length + Nat.ofDigits mult ds.reverse
  | [], [], _, _, buffer, length, inv, _ => ⟨buffer, length, rfl, rfl, inv, by simp⟩
  | [], _ :: _, same, _, _, _, _, _ => absurd (congrArg List.length same) (by simp)
  | _ :: _, [], same, _, _, _, _, _ => absurd (congrArg List.length same) (by simp)
  | c :: cs, d :: ds, same, digits, buffer, length, inv, room => by
    obtain ⟨found, rest⟩ := List.cons.inj same
    have step := mulAddDigits_step hb inv (digits d List.mem_cons_self) room
    generalize walk : mulAddDigits base mult buffer d 0 length = r at step
    obtain ⟨buffer₁, carry, i⟩ := r
    obtain ⟨noCarry, length₁, inv₁, value₁, room₁⟩ := step
    dsimp only at noCarry length₁ inv₁ value₁ room₁
    subst noCarry
    obtain ⟨buffer', length', converted, sized, inv', value'⟩ := convertDigits_valid hb digitOf cs ds
      rest (fun e mem => digits e (List.mem_cons_of_mem d mem)) buffer₁ i inv₁ room₁
    have sameLength : ds.length = cs.length := by simpa using (congrArg List.length rest).symm
    refine ⟨buffer', length', ?_, by rw [sized, length₁], inv', ?_⟩
    · simp only [convertDigits, found, walk, ne_eq, not_true_eq_false, if_false, converted]
    · rw [value', value₁, List.reverse_cons, Nat.ofDigits_append, Nat.ofDigits_singleton,
        List.length_reverse, sameLength, List.length_cons, pow_succ]
      ring

/-- A buffer with room for the whole input never fails the assertion: the loop ends, or
stops at a symbol without a digit. -/
theorem convertDigits_ok {α : Type} {base mult : Nat} (hb : 0 < base) (digitOf : α → Option Nat)
    (digits : ∀ c d, digitOf c = some d → d < mult) :
    ∀ (cs : List α) (buffer : List Nat) (length : Nat), Buffer base length buffer →
      (Nat.ofDigits base buffer + 1) * mult ^ cs.length ≤ base ^ buffer.length →
      ∃ r, convertDigits base mult digitOf cs buffer length = .ok r
  | [], buffer, length, _, _ => ⟨_, rfl⟩
  | c :: cs, buffer, length, inv, room => by
    cases found : digitOf c with
    | none => exact ⟨none, by simp only [convertDigits, found]; rfl⟩
    | some d =>
      have step := mulAddDigits_step hb inv (digits c d found) room
      generalize walk : mulAddDigits base mult buffer d 0 length = r at step
      obtain ⟨buffer₁, carry, i⟩ := r
      obtain ⟨noCarry, -, inv₁, -, room₁⟩ := step
      dsimp only at noCarry inv₁ room₁
      subst noCarry
      obtain ⟨r, converted⟩ := convertDigits_ok hb digitOf digits cs buffer₁ i inv₁ room₁
      exact ⟨r, by simp only [convertDigits, found, walk, ne_eq, not_true_eq_false, if_false, converted]⟩

/-! ### The digits in use -/

/-- The digits read out of a buffer are the number's digits, most significant first. -/
theorem usedDigits_eq {base length : Nat} {buffer : List Nat} (hb : 1 < base) (inv : Buffer base length buffer) :
    usedDigits buffer length = (Nat.digits base (Nat.ofDigits base buffer)).reverse := by
  -- past the digits in use the buffer is zero, and zeros at the top denote nothing
  have unusedZero : buffer.drop length = List.replicate (buffer.length - length) 0 := by
    apply List.eq_replicate_iff.mpr
    refine ⟨by simp, fun x mem => ?_⟩
    obtain ⟨j, h, rfl⟩ := List.getElem_of_mem mem
    rw [List.getElem_drop]
    exact inv.unused _ _ (by omega)
  have value : Nat.ofDigits base buffer = Nat.ofDigits base (buffer.take length) := by
    conv => lhs; rw [← List.take_append_drop length buffer, unusedZero]
    rw [Nat.ofDigits_append_replicate_zero]
  rw [value, Radix.digits_ofDigits_rdropWhile hb fun x mem => inv.lt x (List.mem_of_mem_take mem),
    usedDigits, List.rdropWhile, List.reverse_reverse]

/-- A size below `2 ^ 31` is the `int` it is stored in. -/
theorem toInt32_of_lt {n : Nat} (small : n < 2 ^ 31) : toInt32 n = n := by
  unfold toInt32
  rw [Nat.mod_eq_of_lt (by omega), if_pos small]

/-- `log(256) / log(58)` is below `1.38`: the encoder's buffer holds every number of its
input's bytes. -/
theorem encodeRoom (n : Nat) : 256 ^ n ≤ 58 ^ (n * 138 / 100 + 1) :=
  Radix.pow_le_pow_ratio (by decide) (by decide +kernel) (by decide +kernel) n

/-- `log(58) / log(256)` is below `0.733`: the decoder's buffer holds every number of its
input's digits. -/
theorem decodeRoom (n : Nat) : 58 ^ n ≤ 256 ^ (n * 733 / 1000 + 1) :=
  Radix.pow_le_pow_ratio (by decide) (by decide +kernel) (by decide +kernel) n

/-! ### The two conversions -/

/-- The number big-endian bytes denote. -/
def base256Value (bytes : List UInt8) : Nat := Nat.ofDigits 256 (bytes.map UInt8.toNat).reverse

/-- The big-endian bytes of a number, without leading zeros. -/
def base256Bytes (v : Nat) : List UInt8 := (Nat.digits 256 v).reverse.map Nat.toUInt8

/-- The number base58 digits denote. -/
def base58Value (str : List UInt8) : Nat :=
  Nat.ofDigits 58 (str.map fun c => (pszBase58.idxOf? c).getD 0).reverse

/-- The base58 digits of a number, most significant first, without leading `1`s. -/
def base58Digits (v : Nat) : List UInt8 := (Nat.digits 58 v).reverse.map fun d => pszBase58.getD d 0

/-- `EncodeBase58` writes a `1` for each leading zero byte, then the base58 digits of the
number the other bytes denote, most significant first: whenever its `int` size does not
wrap. -/
theorem encodeBase58_eq (input : List UInt8)
    (fits : (input.dropWhile (· == 0)).length * 138 / 100 + 1 < 2 ^ 31) :
    encodeBase58 input = .ok (List.replicate (input.takeWhile (· == 0)).length (char '1') ++
      base58Digits (base256Value (input.dropWhile (· == 0)))) := by
  set bytes := input.dropWhile (· == 0) with dropped
  have room : (Nat.ofDigits 58 (List.replicate (bytes.length * 138 / 100 + 1) 0) + 1) * 256 ^ bytes.length ≤
      58 ^ (List.replicate (bytes.length * 138 / 100 + 1) 0).length := by
    rw [List.length_replicate, Radix.ofDigits_eq_zero 58 fun x mem => List.eq_of_mem_replicate mem,
      Nat.zero_add, Nat.one_mul]
    exact encodeRoom bytes.length
  obtain ⟨b58, length, converted, -, inv, value⟩ := convertDigits_valid (by decide)
    (fun byte : UInt8 => some byte.toNat) bytes (bytes.map UInt8.toNat) (by simp)
    (fun d mem => by obtain ⟨byte, -, rfl⟩ := List.mem_map.mp mem; exact byte.toNat_lt) _ 0
    (Buffer.zeros (by decide) _) room
  rw [Radix.ofDigits_eq_zero 58 fun x mem => List.eq_of_mem_replicate mem, Nat.zero_mul,
    Nat.zero_add] at value
  simp only [encodeBase58]
  rw [← dropped, toInt32_of_lt fits, Int.toNat_natCast, if_neg (by omega), converted]
  rw [Except.ok_bind]
  simp only [usedDigits_eq (by decide) inv, value]
  rfl

/-- The digit of a character of the alphabet. -/
theorem idxOf?_of_mem {c : UInt8} (mem : c ∈ pszBase58) :
    pszBase58.idxOf? c = some ((pszBase58.idxOf? c).getD 0) := by
  obtain ⟨d, found⟩ := Option.isSome_iff_exists.mp (List.isSome_idxOf?.mpr mem)
  rw [found, Option.getD_some]

/-- `DecodeBase58` of base58 digits: a zero byte for each leading `1`, then the big-endian
bytes of the number the other digits denote. -/
theorem decodeBase58_eq (str : List UInt8) (digits : ∀ c ∈ str, c ∈ pszBase58)
    (fits : str.length < 2 ^ 31) :
    decodeBase58 str = .ok (some (List.replicate (str.takeWhile (· == char '1')).length 0 ++
      base256Bytes (base58Value (str.dropWhile (· == char '1'))))) := by
  -- the string has no terminating zero and no space, at its start or anywhere
  have noZero : str.takeWhile (· != 0) = str :=
    List.takeWhile_eq_self_iff.mpr fun c mem => by simpa using (pszBase58_plain c (digits c mem)).1
  have noSpace : ∀ c ∈ str, isSpace c = false := fun c mem => (pszBase58_plain c (digits c mem)).2
  have noLeadingSpace : str.dropWhile isSpace = str :=
    List.dropWhile_eq_self_iff.mpr fun nonempty => by simp [noSpace _ (List.getElem_mem nonempty)]
  set psz := str.dropWhile (· == char '1') with dropped
  have inPsz : ∀ c ∈ psz, c ∈ pszBase58 := fun c mem => digits c ((List.dropWhile_suffix _).subset mem)
  have allDigits : psz.takeWhile (! isSpace ·) = psz :=
    List.takeWhile_eq_self_iff.mpr fun c mem => by simp [noSpace c ((List.dropWhile_suffix _).subset mem)]
  have nothingAfter : (psz.dropWhile (! isSpace ·)).dropWhile isSpace = [] := by
    have allTaken : psz.dropWhile (! isSpace ·) = [] :=
      List.dropWhile_eq_nil_iff.mpr fun c mem => by simp [noSpace c ((List.dropWhile_suffix _).subset mem)]
    rw [allTaken]
    rfl
  have shorter : psz.length ≤ str.length := (List.dropWhile_suffix _).length_le
  have fitsPsz : psz.length * 733 / 1000 + 1 < 2 ^ 31 := by omega
  have room : (Nat.ofDigits 256 (List.replicate (psz.length * 733 / 1000 + 1) 0) + 1) * 58 ^ psz.length ≤
      256 ^ (List.replicate (psz.length * 733 / 1000 + 1) 0).length := by
    rw [List.length_replicate, Radix.ofDigits_eq_zero 256 fun x mem => List.eq_of_mem_replicate mem,
      Nat.zero_add, Nat.one_mul]
    exact decodeRoom psz.length
  obtain ⟨b256, length, converted, -, inv, value⟩ := convertDigits_valid (by decide)
    (fun c => pszBase58.idxOf? c) psz (psz.map fun c => (pszBase58.idxOf? c).getD 0)
    (by rw [List.map_map]; exact List.map_congr_left fun c mem => idxOf?_of_mem (inPsz c mem))
    (fun d mem => by
      obtain ⟨c, inside, rfl⟩ := List.mem_map.mp mem
      exact (idxOf?_pszBase58_some (idxOf?_of_mem (inPsz c inside))).1) _ 0
    (Buffer.zeros (by decide) _) room
  rw [Radix.ofDigits_eq_zero 256 fun x mem => List.eq_of_mem_replicate mem, Nat.zero_mul,
    Nat.zero_add] at value
  simp only [decodeBase58]
  rw [noZero, noLeadingSpace, ← dropped, toInt32_of_lt fitsPsz, Int.toNat_natCast, if_neg (by omega),
    allDigits, converted, Except.ok_bind]
  simp only [nothingAfter, List.isEmpty_nil, if_true, usedDigits_eq (by decide) inv, value]
  rfl

/-! ### Leading symbols -/

section Leading

variable {α : Type} [DecidableEq α]

/-- The leading run of `a`s is that many `a`s. -/
theorem takeWhile_beq_eq_replicate (a : α) (l : List α) :
    l.takeWhile (· == a) = List.replicate (l.takeWhile (· == a)).length a :=
  List.eq_replicate_iff.mpr ⟨rfl, fun x mem => by simpa using List.mem_takeWhile_imp mem⟩

/-- A list is its leading run of `a`s and the rest. -/
theorem replicate_append_dropWhile (a : α) (l : List α) :
    List.replicate (l.takeWhile (· == a)).length a ++ l.dropWhile (· == a) = l := by
  rw [← takeWhile_beq_eq_replicate, List.takeWhile_append_dropWhile]

/-- What follows the leading run does not start with `a`. -/
theorem head?_dropWhile_beq (a : α) (l : List α) : (l.dropWhile (· == a)).head? ≠ some a := by
  intro first
  have nonempty : l.dropWhile (· == a) ≠ [] := by
    intro empty
    rw [empty] at first
    cases first
  have notA := List.head_dropWhile_not (· == a) nonempty
  rw [List.head?_eq_some_head nonempty] at first
  simp [Option.some.inj first] at notA

theorem takeWhile_replicate_append (a : α) (z : Nat) {l : List α} (first : l.head? ≠ some a) :
    (List.replicate z a ++ l).takeWhile (· == a) = List.replicate z a := by
  induction z with
  | zero =>
    cases l with
    | nil => rfl
    | cons x l =>
      have other : x ≠ a := fun same => first (by rw [same]; rfl)
      simp [other]
  | succ z ih => simp [List.replicate_succ, ih]

theorem dropWhile_replicate_append (a : α) (z : Nat) {l : List α} (first : l.head? ≠ some a) :
    (List.replicate z a ++ l).dropWhile (· == a) = l := by
  induction z with
  | zero =>
    cases l with
    | nil => rfl
    | cons x l =>
      have other : x ≠ a := fun same => first (by rw [same]; rfl)
      simp [other]
  | succ z ih => simp [List.replicate_succ, ih]

end Leading

/-! ### Digits and values -/

theorem pszBase58_zero : pszBase58.getD 0 0 = char '1' := by decide

theorem getD_mem_pszBase58 {d : Nat} (below : d < 58) : pszBase58.getD d 0 ∈ pszBase58 := by
  rw [List.getD_eq_getElem?_getD, List.getElem?_eq_getElem (by rw [length_pszBase58]; exact below),
    Option.getD_some]
  exact List.getElem_mem _

theorem head?_base58Digits (v : Nat) : (base58Digits v).head? ≠ some (char '1') := by
  rw [← pszBase58_zero]
  exact Radix.head?_digits_symbols (fun d => pszBase58.getD d 0) (by decide)
    (fun d below same => (pszBase58_one d below).mp (same.trans pszBase58_zero)) v

theorem head?_base256Bytes (v : Nat) : (base256Bytes v).head? ≠ some 0 :=
  Radix.head?_digits_symbols Nat.toUInt8 (by decide)
    (fun d below same => by
      have back : d.toUInt8.toNat = d := UInt8.toNat_ofNat_of_lt' below
      rw [same] at back
      exact back.symm) v

theorem mem_base58Digits {v : Nat} : ∀ c ∈ base58Digits v, c ∈ pszBase58 := by
  intro c mem
  obtain ⟨d, inside, rfl⟩ := List.mem_map.mp mem
  exact getD_mem_pszBase58 (Nat.digits_lt_base (by decide) (List.mem_reverse.mp inside))

theorem base58Value_base58Digits (v : Nat) : base58Value (base58Digits v) = v := by
  have back : ∀ d ∈ (Nat.digits 58 v).reverse, (pszBase58.idxOf? (pszBase58.getD d 0)).getD 0 = d := by
    intro d mem
    rw [idxOf?_pszBase58 d (Nat.digits_lt_base (by decide) (List.mem_reverse.mp mem)), Option.getD_some]
  simp only [base58Value, base58Digits, List.map_map, Function.comp_def]
  rw [List.map_congr_left back, List.map_id', List.reverse_reverse, Nat.ofDigits_digits]

theorem base256Value_base256Bytes (v : Nat) : base256Value (base256Bytes v) = v := by
  have back : ∀ d ∈ (Nat.digits 256 v).reverse, d.toUInt8.toNat = d := fun d mem =>
    UInt8.toNat_ofNat_of_lt' (Nat.digits_lt_base (by decide) (List.mem_reverse.mp mem))
  simp only [base256Value, base256Bytes, List.map_map, Function.comp_def]
  rw [List.map_congr_left back, List.map_id', List.reverse_reverse, Nat.ofDigits_digits]

/-- Base58 digits that do not start with `1` are the digits of the number they denote. -/
theorem base58Digits_base58Value {str : List UInt8} (digits : ∀ c ∈ str, c ∈ pszBase58)
    (first : str.head? ≠ some (char '1')) : base58Digits (base58Value str) = str :=
  Radix.digits_symbols (fun d => pszBase58.getD d 0) (by decide) _
    (fun c mem => idxOf?_pszBase58_some (idxOf?_of_mem (digits c mem))) (pszBase58_zero ▸ first)

/-- Bytes that do not start with a zero are the bytes of the number they denote. -/
theorem base256Bytes_base256Value {bytes : List UInt8} (first : bytes.head? ≠ some 0) :
    base256Bytes (base256Value bytes) = bytes :=
  Radix.digits_symbols Nat.toUInt8 (by decide) UInt8.toNat
    (fun c _ => ⟨c.toNat_lt, UInt8.ofNat_toNat⟩) first

theorem length_base58Digits_le {v k : Nat} (below : v < 58 ^ k) : (base58Digits v).length ≤ k := by
  rw [base58Digits, List.length_map, List.length_reverse]
  exact (Nat.digits_length_le_iff (by decide) v).mpr below

theorem length_base256Bytes_le {v k : Nat} (below : v < 256 ^ k) : (base256Bytes v).length ≤ k := by
  rw [base256Bytes, List.length_map, List.length_reverse]
  exact (Nat.digits_length_le_iff (by decide) v).mpr below

theorem base256Value_lt (bytes : List UInt8) : base256Value bytes < 256 ^ bytes.length := by
  have bound := Nat.ofDigits_lt_base_pow_length (b := 256) (l := (bytes.map UInt8.toNat).reverse)
    (by decide) fun d mem => by
      obtain ⟨byte, -, rfl⟩ := List.mem_map.mp (List.mem_reverse.mp mem)
      exact byte.toNat_lt
  rwa [List.length_reverse, List.length_map] at bound

theorem base58Value_lt {str : List UInt8} (digits : ∀ c ∈ str, c ∈ pszBase58) :
    base58Value str < 58 ^ str.length := by
  have bound := Nat.ofDigits_lt_base_pow_length (b := 58)
    (l := (str.map fun c => (pszBase58.idxOf? c).getD 0).reverse) (by decide) fun d mem => by
      obtain ⟨c, inside, rfl⟩ := List.mem_map.mp (List.mem_reverse.mp mem)
      exact (idxOf?_pszBase58_some (idxOf?_of_mem (digits c inside))).1
  rwa [List.length_reverse, List.length_map] at bound

/-! ### Round trips -/

/-- Bytes come back from their base58 string. -/
theorem decodeBase58_encodeBase58 (bytes : List UInt8) (short : bytes.length < 2 ^ 30) :
    ∃ str, encodeBase58 bytes = .ok str ∧ decodeBase58 str = .ok (some bytes) := by
  have split := congrArg List.length (replicate_append_dropWhile (0 : UInt8) bytes)
  rw [List.length_append, List.length_replicate] at split
  have rest := head?_dropWhile_beq (0 : UInt8) bytes
  have digitsShort : (base58Digits (base256Value (bytes.dropWhile (· == 0)))).length ≤
      (bytes.dropWhile (· == 0)).length * 138 / 100 + 1 :=
    length_base58Digits_le (lt_of_lt_of_le (base256Value_lt _) (encodeRoom _))
  have first := head?_base58Digits (base256Value (bytes.dropWhile (· == 0)))
  refine ⟨_, encodeBase58_eq bytes (by omega), ?_⟩
  rw [decodeBase58_eq _ ?digits ?fits, takeWhile_replicate_append _ _ first, List.length_replicate,
    dropWhile_replicate_append _ _ first, base58Value_base58Digits, base256Bytes_base256Value rest,
    replicate_append_dropWhile]
  case digits =>
    intro c mem
    rcases List.mem_append.mp mem with ones | digits
    · rw [List.eq_of_mem_replicate ones]
      decide
    · exact mem_base58Digits c digits
  case fits =>
    rw [List.length_append, List.length_replicate]
    omega

/-- A string of base58 digits comes back from its bytes. -/
theorem encodeBase58_decodeBase58 (str : List UInt8) (short : str.length < 2 ^ 30)
    (digits : ∀ c ∈ str, c ∈ pszBase58) :
    ∃ bytes, decodeBase58 str = .ok (some bytes) ∧ encodeBase58 bytes = .ok str := by
  have split := congrArg List.length (replicate_append_dropWhile (char '1') str)
  rw [List.length_append, List.length_replicate] at split
  have rest := head?_dropWhile_beq (char '1') str
  have inRest : ∀ c ∈ str.dropWhile (· == char '1'), c ∈ pszBase58 :=
    fun c mem => digits c ((List.dropWhile_suffix _).subset mem)
  have bytesShort : (base256Bytes (base58Value (str.dropWhile (· == char '1')))).length ≤
      (str.dropWhile (· == char '1')).length * 733 / 1000 + 1 :=
    length_base256Bytes_le (lt_of_lt_of_le (base58Value_lt inRest) (decodeRoom _))
  have first := head?_base256Bytes (base58Value (str.dropWhile (· == char '1')))
  refine ⟨_, decodeBase58_eq str digits (by omega), ?_⟩
  rw [encodeBase58_eq _ ?fits, takeWhile_replicate_append _ _ first, List.length_replicate,
    dropWhile_replicate_append _ _ first, base256Value_base256Bytes,
    base58Digits_base58Value inRest rest, replicate_append_dropWhile]
  case fits =>
    rw [dropWhile_replicate_append _ _ first]
    omega

/-- `DecodeBase58` of any string whose `int` size does not wrap never fails the assertion:
whatever it meets, it stops at a symbol without a digit or reads every digit into a buffer
with room for them. -/
theorem decodeBase58_ok (str : List UInt8) (fits : str.length < 2 ^ 31) :
    ∃ r, decodeBase58 str = .ok r := by
  -- the decoder reads on from suffixes of prefixes of the string
  have shorter : (((str.takeWhile (· != 0)).dropWhile isSpace).dropWhile (· == char '1')).length ≤
      str.length :=
    calc _ ≤ ((str.takeWhile (· != 0)).dropWhile isSpace).length := (List.dropWhile_suffix _).length_le
      _ ≤ (str.takeWhile (· != 0)).length := (List.dropWhile_suffix _).length_le
      _ ≤ str.length := (List.takeWhile_prefix _).length_le
  simp only [decodeBase58]
  generalize ((str.takeWhile (· != 0)).dropWhile isSpace).dropWhile (· == char '1') = psz at shorter ⊢
  have digits : (psz.takeWhile (! isSpace ·)).length ≤ psz.length := (List.takeWhile_prefix _).length_le
  have room : (Nat.ofDigits 256 (List.replicate (psz.length * 733 / 1000 + 1) 0) + 1) *
      58 ^ (psz.takeWhile (! isSpace ·)).length ≤ 256 ^ (List.replicate (psz.length * 733 / 1000 + 1) 0).length := by
    rw [List.length_replicate, Radix.ofDigits_eq_zero 256 fun x mem => List.eq_of_mem_replicate mem,
      Nat.zero_add, Nat.one_mul]
    exact (Nat.pow_le_pow_right (by decide) digits).trans (decodeRoom psz.length)
  obtain ⟨r, converted⟩ := convertDigits_ok (by decide) (fun c => pszBase58.idxOf? c)
    (fun c d found => (idxOf?_pszBase58_some found).1) _ _ 0 (Buffer.zeros (by decide) _) room
  rw [toInt32_of_lt (by omega), Int.toNat_natCast, if_neg (by omega), converted, Except.ok_bind]
  -- a symbol without a digit, trailing text, or the bytes: each is a result
  rcases r with _ | ⟨b256, length⟩
  · exact ⟨_, rfl⟩
  · dsimp only
    split <;> exact ⟨_, rfl⟩

/-- `EncodeBase58` of any bytes whose `int` size does not wrap never fails the assertion. -/
theorem encodeBase58_ok (bytes : List UInt8) (fits : bytes.length * 138 / 100 + 1 < 2 ^ 31) :
    ∃ str, encodeBase58 bytes = .ok str := by
  have shorter : (bytes.dropWhile (· == 0)).length ≤ bytes.length := (List.dropWhile_suffix _).length_le
  exact ⟨_, encodeBase58_eq bytes (by omega)⟩

/-- Wherever the `int` buffer size does not wrap, the two conversions are inverse: bytes come
back from their string, a string of base58 digits comes back from its bytes, and neither
fails its assertion. -/
theorem base58_roundTrip :
    (∀ bytes : List UInt8, bytes.length < 2 ^ 30 →
      ∃ str, encodeBase58 bytes = .ok str ∧ decodeBase58 str = .ok (some bytes)) ∧
    (∀ str : List UInt8, str.length < 2 ^ 30 → (∀ c ∈ str, c ∈ pszBase58) →
      ∃ bytes, decodeBase58 str = .ok (some bytes) ∧ encodeBase58 bytes = .ok str) ∧
    (∀ bytes : List UInt8, bytes.length * 138 / 100 + 1 < 2 ^ 31 → ∃ str, encodeBase58 bytes = .ok str) ∧
    (∀ str : List UInt8, str.length < 2 ^ 31 → ∃ r, decodeBase58 str = .ok r) :=
  ⟨decodeBase58_encodeBase58, encodeBase58_decodeBase58, encodeBase58_ok, decodeBase58_ok⟩

example :
    ∃ str, encodeBase58 [0, 0x61] = .ok str ∧ decodeBase58 str = .ok (some [0, 0x61]) :=
  base58_roundTrip.1 [0, 0x61] (by decide)

/-! ### The size wrapping -/

/-- A buffer size that wraps to `0` as an `int` leaves no room: the carry of the first
byte, nonzero, is never absorbed. -/
theorem encodeBase58_wrapped {byte : UInt8} (rest : List UInt8) (nonzero : byte ≠ 0)
    (wraps : toInt32 ((byte :: rest).length * 138 / 100 + 1) = 0) :
    encodeBase58 (byte :: rest) = .error Abort.carry := by
  have kept : (byte :: rest).dropWhile (· == 0) = byte :: rest :=
    List.dropWhile_cons_of_neg (by simpa using nonzero)
  have carry : byte.toNat ≠ 0 := fun zero => nonzero (UInt8.toNat_inj.mp zero)
  simp only [encodeBase58]
  rw [kept, wraps]
  simp [convertDigits, mulAddDigits, carry]
  -- the thrown abort passes through the rest of the function
  rfl

/-- `EncodeBase58` computes the buffer size `size * 138 / 100 + 1` in an `int`, which at
`3112295142` bytes is `4294967296` and wraps to `0`: the buffer the comment calls "enough
space" has no room, and `assert(carry == 0)` fails on the first byte. -/
theorem encodeBase58_sizeWraps :
    encodeBase58 (0xFF :: List.replicate 3112295141 0) = .error Abort.carry :=
  encodeBase58_wrapped _ (by decide) (by rw [List.length_cons, List.length_replicate]; decide)

end MFCoin.Encoding
