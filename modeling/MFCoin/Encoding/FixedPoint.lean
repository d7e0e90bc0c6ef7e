/-
Module: MFCoin.Encoding.FixedPoint
Purpose: `ParseFixedPoint` (src/src/utilstrencodings.cpp), the parser of amounts, as the
  phases of its one function: the sign, the integer part, the fraction, the exponent, the
  check for trailing text and the scaling by `decimals`. The mantissa defers its trailing
  zeros (`mantissa_tzeros`), so it overflows only when the digits without them exceed
  `UPPER_BOUND`. Against the grammar `-?(0|[1-9][0-9]*)(\.[0-9]+)?([eE][+-]?[0-9]+)?` and the
  exact rational value of the text: the parser returns `v` exactly when the text is in the
  grammar and its value times `10 ^ decimals` is the integer `v` with `|v| ≤ 10^18 - 1`, except
  for the value zero, which it refuses unless its written exponent plus `decimals` lies in
  `[0, 18)`.
Trusted boundary: the `int` counters (`ptr`, `end`, `point_ofs`, `mantissa_tzeros`) are
  natural numbers, exact for strings shorter than `2 ^ 31` characters.
Main exports: parseFixedPoint, Literal, Literal.value, parseFixedPoint_iff
-/
import Mathlib.Algebra.Order.Field.Power
import Mathlib.Data.List.TakeWhile
import Mathlib.Tactic.Ring
import Mathlib.Tactic.Linarith
import Mathlib.Tactic.Positivity

namespace MFCoin.Encoding

/-! ### The source's data -/

/-- `UPPER_BOUND`: `10^18 - 1`, the largest magnitude of an amount. -/
def UPPER_BOUND : Int := 1000000000000000000 - 1

/-- `val[ptr] >= '0' && val[ptr] <= '9'`. -/
def isDigit (c : Char) : Bool := '0' ≤ c && c ≤ '9'

/-- `ch - '0'`. -/
def digitOf (c : Char) : Int := (c.toNat : Int) - ('0'.toNat : Int)

/-! ### The parser -/

/-- The loop of `ProcessMantissaDigit`: `mantissa *= 10`, `count` times, each after the
check against overflow. -/
def shiftMantissa : Nat → Int → Option Int
  | 0, mantissa => some mantissa
  | count + 1, mantissa =>
    if mantissa > UPPER_BOUND / 10 then none else shiftMantissa count (mantissa * 10)

/-- `ProcessMantissaDigit(ch, mantissa, mantissa_tzeros)`: a zero is only counted; another
digit first multiplies in the zeros counted and its own place. `none` is `return false`. -/
def processMantissaDigit (ch : Char) (mantissa : Int) (mantissa_tzeros : Nat) : Option (Int × Nat) :=
  if ch = '0' then some (mantissa, mantissa_tzeros + 1)
  else (shiftMantissa (mantissa_tzeros + 1) mantissa).map fun mantissa => (mantissa + digitOf ch, 0)

/-- A loop `while (ptr < end && isdigit(val[ptr]))` over mantissa digits: the mantissa, the
zeros deferred, the digits read and the text after them. -/
def mantissaRun : List Char → Int → Nat → Nat → Option (Int × Nat × Nat × List Char)
  | [], mantissa, mantissa_tzeros, count => some (mantissa, mantissa_tzeros, count, [])
  | c :: val, mantissa, mantissa_tzeros, count =>
    if isDigit c then
      match processMantissaDigit c mantissa mantissa_tzeros with
      | none => none
      | some (mantissa, mantissa_tzeros) => mantissaRun val mantissa mantissa_tzeros (count + 1)
    else some (mantissa, mantissa_tzeros, count, c :: val)

/-- The loop over the exponent's digits, with its check against overflow. -/
def exponentRun : List Char → Int → Option (Int × List Char)
  | [], exponent => some (exponent, [])
  | c :: val, exponent =>
    if isDigit c then
      if exponent > UPPER_BOUND / 10 then none else exponentRun val (exponent * 10 + digitOf c)
    else some (exponent, c :: val)

/-- The final loop: `mantissa *= 10`, `count` times, each after the check of both bounds. -/
def scaleMantissa : Nat → Int → Option Int
  | 0, mantissa => some mantissa
  | count + 1, mantissa =>
    if mantissa > UPPER_BOUND / 10 ∨ mantissa < -(UPPER_BOUND / 10) then none
    else scaleMantissa count (mantissa * 10)

/-- The optional `-`: `mantissa_sign` and the text after it. -/
def readSign : List Char → Bool × List Char
  | '-' :: val => (true, val)
  | val => (false, val)

/-- The integer part: a single `0` is passed; a digit from `1` to `9` starts a run of
mantissa digits; anything else, or nothing, fails. -/
def readInteger : List Char → Option (Int × Nat × List Char)
  | [] => none
  | c :: val =>
    if c = '0' then some (0, 0, val)
    else if '1' ≤ c ∧ c ≤ '9' then
      (mantissaRun (c :: val) 0 0 0).map fun (mantissa, mantissa_tzeros, _, val) => (mantissa, mantissa_tzeros, val)
    else none

/-- The fraction: a `.` and at least one digit, read into the mantissa and counted in
`point_ofs`. -/
def readFraction (mantissa : Int) (mantissa_tzeros : Nat) : List Char → Option (Int × Nat × Nat × List Char)
  | '.' :: val =>
    match val with
    | c :: _ => if isDigit c then mantissaRun val mantissa mantissa_tzeros 0 else none
    | [] => none
  | val => some (mantissa, mantissa_tzeros, 0, val)

/-- The exponent's optional sign: `exponent_sign` and the text after it. -/
def readExponentSign : List Char → Bool × List Char
  | '+' :: val => (false, val)
  | '-' :: val => (true, val)
  | val => (false, val)

/-- The exponent: an `e` or `E`, an optional sign and at least one digit. -/
def readExponent : List Char → Option (Bool × Int × List Char)
  | [] => some (false, 0, [])
  | c :: val =>
    if c = 'e' ∨ c = 'E' then
      match readExponentSign val with
      | (exponent_sign, d :: digits) =>
        if isDigit d then
          (exponentRun (d :: digits) 0).map fun (exponent, val) => (exponent_sign, exponent, val)
        else none
      | (_, []) => none
    else some (false, 0, c :: val)

/-- After the text: one exponent from the written one, the fraction's length, the zeros
deferred and `decimals`, and the mantissa scaled by it within `UPPER_BOUND`. -/
def finalize (mantissa_sign : Bool) (mantissa : Int) (mantissa_tzeros point_ofs : Nat)
    (exponent_sign : Bool) (exponent decimals : Int) : Option Int :=
  let exponent := if exponent_sign then -exponent else exponent
  let exponent := exponent - point_ofs + mantissa_tzeros
  let mantissa := if mantissa_sign then -mantissa else mantissa
  let exponent := exponent + decimals
  if exponent < 0 then none
  else if 18 ≤ exponent then none
  else
    match scaleMantissa exponent.toNat mantissa with
    | none => none
    | some mantissa => if mantissa > UPPER_BOUND ∨ mantissa < -UPPER_BOUND then none else some mantissa

/-- `ParseFixedPoint(val, decimals, &amount)`: the amount, or `none` where it returns
`false`. -/
def parseFixedPoint (val : List Char) (decimals : Int) : Option Int := do
  let (mantissa_sign, val) := readSign val
  let (mantissa, mantissa_tzeros, val) ← readInteger val
  let (mantissa, mantissa_tzeros, point_ofs, val) ← readFraction mantissa mantissa_tzeros val
  let (exponent_sign, exponent, val) ← readExponent val
  -- trailing garbage
  if val ≠ [] then none
  else finalize mantissa_sign mantissa mantissa_tzeros point_ofs exponent_sign exponent decimals

/-! ### Digits -/

theorem isDigit_iff {c : Char} : isDigit c = true ↔ 48 ≤ c.toNat ∧ c.toNat ≤ 57 := by
  simp only [isDigit, Bool.and_eq_true, decide_eq_true_eq, Char.le_def, Char.toNat]
  rfl

/-- A digit's value, as a natural number below ten. -/
theorem digitOf_of_isDigit {c : Char} (digit : isDigit c = true) :
    digitOf c = ((c.toNat - 48 : Nat) : Int) ∧ c.toNat - 48 < 10 := by
  have bounds := isDigit_iff.mp digit
  refine ⟨?_, by omega⟩
  rw [digitOf, show ('0'.toNat : Int) = 48 from rfl]
  omega

theorem digitOf_eq_zero_iff {c : Char} (digit : isDigit c = true) : digitOf c = 0 ↔ c = '0' := by
  have bounds := isDigit_iff.mp digit
  constructor
  · intro zero
    rw [digitOf, show ('0'.toNat : Int) = 48 from rfl] at zero
    have toNat : c.toNat = 48 := by omega
    exact Char.ext (UInt32.toNat_inj.mp toNat)
  · rintro rfl
    rfl

/-- The number decimal digits denote, most significant first. -/
def decimalValue (ds : List Char) : Nat := ds.foldl (fun acc c => 10 * acc + (c.toNat - 48)) 0

theorem foldl_decimal (ds : List Char) (acc : Nat) :
    ds.foldl (fun acc c => 10 * acc + (c.toNat - 48)) acc =
      acc * 10 ^ ds.length + ds.foldl (fun acc c => 10 * acc + (c.toNat - 48)) 0 := by
  induction ds generalizing acc with
  | nil => simp
  | cons c ds ih =>
    rw [List.foldl_cons, List.foldl_cons, ih (10 * acc + _), ih (10 * 0 + _), List.length_cons, pow_succ]
    ring

theorem decimalValue_cons (c : Char) (ds : List Char) :
    decimalValue (c :: ds) = (c.toNat - 48) * 10 ^ ds.length + decimalValue ds := by
  rw [decimalValue, List.foldl_cons, foldl_decimal]
  simp [decimalValue]

theorem decimalValue_append (a b : List Char) :
    decimalValue (a ++ b) = decimalValue a * 10 ^ b.length + decimalValue b := by
  rw [decimalValue, List.foldl_append, foldl_decimal]
  rfl

theorem decimalValue_eq_zero_iff {ds : List Char} (digits : ∀ c ∈ ds, isDigit c = true) :
    decimalValue ds = 0 ↔ ∀ c ∈ ds, c = '0' := by
  induction ds with
  | nil => simp [decimalValue]
  | cons c ds ih =>
    have head := digitOf_of_isDigit (digits c List.mem_cons_self)
    have zero := digitOf_eq_zero_iff (digits c List.mem_cons_self)
    rw [decimalValue_cons, List.forall_mem_cons, ← ih fun x mem => digits x (List.mem_cons_of_mem c mem), ← zero,
      head.1]
    have positive : 0 < 10 ^ ds.length := pow_pos (by decide) _
    constructor
    · intro sum
      have : (c.toNat - 48) * 10 ^ ds.length = 0 := by omega
      exact ⟨by simpa [positive.ne'] using this, by omega⟩
    · rintro ⟨first, rest⟩
      rw [rest]
      simp only [Nat.cast_eq_zero] at first
      rw [first]
      simp

/-! ### The mantissa -/

/-- A mantissa digit without the check against overflow: a zero is deferred, another digit
takes the zeros deferred and its own place. -/
def pushDigit (st : Int × Nat) (c : Char) : Int × Nat :=
  if c = '0' then (st.1, st.2 + 1) else (st.1 * 10 ^ (st.2 + 1) + digitOf c, 0)

/-- What the digits at the front of a text make of a mantissa, without the check. -/
def pushDigits (val : List Char) (st : Int × Nat) : Int × Nat := (val.takeWhile isDigit).foldl pushDigit st

theorem le_pushDigit {c : Char} (digit : isDigit c = true) {st : Int × Nat} (nonneg : 0 ≤ st.1) :
    st.1 ≤ (pushDigit st c).1 := by
  have value := digitOf_of_isDigit digit
  unfold pushDigit
  split_ifs
  · exact le_refl _
  · have grows : st.1 ≤ st.1 * 10 ^ (st.2 + 1) := le_mul_of_one_le_right nonneg (one_le_pow₀ (by norm_num))
    dsimp only
    omega

/-- The mantissa never shrinks as digits come. -/
theorem le_foldl_pushDigit : ∀ {ds : List Char}, (∀ c ∈ ds, isDigit c = true) → ∀ (st : Int × Nat), 0 ≤ st.1 →
    st.1 ≤ (ds.foldl pushDigit st).1
  | [], _, _, _ => le_refl _
  | c :: ds, digits, st, nonneg => by
    have first := le_pushDigit (digits c List.mem_cons_self) nonneg
    exact first.trans (le_foldl_pushDigit (fun x mem => digits x (List.mem_cons_of_mem c mem)) _ (nonneg.trans first))

theorem shiftMantissa_succ {mantissa : Int} (nonneg : 0 ≤ mantissa) (count : Nat) :
    shiftMantissa (count + 1) mantissa =
      if mantissa * 10 ^ count ≤ UPPER_BOUND / 10 then some (mantissa * 10 ^ (count + 1)) else none := by
  induction count generalizing mantissa with
  | zero =>
    by_cases big : mantissa > UPPER_BOUND / 10
    · simp [shiftMantissa, big, not_le.mpr big]
    · simp [shiftMantissa, big, not_lt.mp big]
  | succ count ih =>
    have shifted : mantissa * 10 * 10 ^ count = mantissa * 10 ^ (count + 1) := by ring
    have shifted' : mantissa * 10 * 10 ^ (count + 1) = mantissa * 10 ^ (count + 1 + 1) := by ring
    rw [shiftMantissa, ih (by omega), shifted, shifted']
    by_cases big : mantissa > UPPER_BOUND / 10
    · -- a mantissa already too large stays too large once multiplied
      have grows : mantissa ≤ mantissa * 10 ^ (count + 1) :=
        le_mul_of_one_le_right nonneg (one_le_pow₀ (by norm_num))
      rw [if_pos big, if_neg (by omega)]
    · rw [if_neg big]

/-- A digit passes the check exactly when the mantissa it makes stays within `UPPER_BOUND`. -/
theorem processMantissaDigit_eq {c : Char} (digit : isDigit c = true) {mantissa : Int} (nonneg : 0 ≤ mantissa)
    (bounded : mantissa ≤ UPPER_BOUND) (tzeros : Nat) :
    processMantissaDigit c mantissa tzeros =
      if (pushDigit (mantissa, tzeros) c).1 ≤ UPPER_BOUND then some (pushDigit (mantissa, tzeros) c) else none := by
  by_cases zero : c = '0'
  · simp [processMantissaDigit, pushDigit, zero, bounded]
  · have value := digitOf_of_isDigit digit
    rw [processMantissaDigit, if_neg zero, shiftMantissa_succ nonneg, pushDigit, if_neg zero]
    have scaled : mantissa * 10 ^ (tzeros + 1) = mantissa * 10 ^ tzeros * 10 := by ring
    dsimp only
    rw [scaled]
    -- the multiple of ten below the new mantissa decides both checks
    by_cases fits : mantissa * 10 ^ tzeros ≤ UPPER_BOUND / 10
    · rw [if_pos fits, if_pos (by unfold UPPER_BOUND at fits ⊢; omega)]
      rfl
    · rw [if_neg fits, if_neg (by unfold UPPER_BOUND at fits ⊢; omega)]
      rfl

/-- A run of mantissa digits reads every digit at the front of the text, and fails exactly
when the mantissa they make, without its deferred zeros, exceeds `UPPER_BOUND`. -/
theorem mantissaRun_eq : ∀ (val : List Char) {mantissa : Int} (tzeros count : Nat), 0 ≤ mantissa →
    mantissa ≤ UPPER_BOUND →
    mantissaRun val mantissa tzeros count =
      if (pushDigits val (mantissa, tzeros)).1 ≤ UPPER_BOUND then
        some ((pushDigits val (mantissa, tzeros)).1, (pushDigits val (mantissa, tzeros)).2,
          count + (val.takeWhile isDigit).length, val.dropWhile isDigit)
      else none
  | [], mantissa, tzeros, count, _, bounded => by simp [mantissaRun, pushDigits, bounded]
  | c :: val, mantissa, tzeros, count, nonneg, bounded => by
    by_cases digit : isDigit c = true
    · have pushed : pushDigits (c :: val) (mantissa, tzeros) = pushDigits val (pushDigit (mantissa, tzeros) c) := by
        simp [pushDigits, digit]
      have length : count + (List.takeWhile isDigit (c :: val)).length =
          count + 1 + (List.takeWhile isDigit val).length := by
        simp [digit]
        omega
      have rest : List.dropWhile isDigit (c :: val) = List.dropWhile isDigit val := by
        simp [digit]
      rw [mantissaRun, if_pos digit, processMantissaDigit_eq digit nonneg bounded, pushed, length, rest]
      by_cases fits : (pushDigit (mantissa, tzeros) c).1 ≤ UPPER_BOUND
      · rw [if_pos fits]
        exact mantissaRun_eq val _ _ (nonneg.trans (le_pushDigit digit nonneg)) fits
      · -- a digit that overflows leaves a mantissa too large whatever follows
        have later := le_foldl_pushDigit
          (show ∀ x ∈ val.takeWhile isDigit, isDigit x = true from fun x mem => List.mem_takeWhile_imp mem)
          (pushDigit (mantissa, tzeros) c) (nonneg.trans (le_pushDigit digit nonneg))
        rw [if_neg fits, if_neg (by unfold pushDigits; omega)]
    · have stops : List.takeWhile isDigit (c :: val) = [] := by simp [digit]
      have rest : List.dropWhile isDigit (c :: val) = c :: val := by simp [digit]
      simp [mantissaRun, digit, pushDigits, stops, rest, bounded]

/-- The mantissa and its deferred zeros denote the number the digits make after it. -/
theorem foldl_pushDigit_value : ∀ {ds : List Char}, (∀ c ∈ ds, isDigit c = true) → ∀ (st : Int × Nat),
    (ds.foldl pushDigit st).1 * 10 ^ (ds.foldl pushDigit st).2 = st.1 * 10 ^ st.2 * 10 ^ ds.length + decimalValue ds
  | [], _, st => by simp [decimalValue]
  | c :: ds, digits, st => by
    have value := digitOf_of_isDigit (digits c List.mem_cons_self)
    have step : (pushDigit st c).1 * 10 ^ (pushDigit st c).2 = st.1 * 10 ^ st.2 * 10 + ((c.toNat - 48 : Nat) : Int) := by
      unfold pushDigit
      split_ifs with zero
      · have none : c.toNat - 48 = 0 := by rw [zero]; rfl
        rw [none]
        push_cast
        ring
      · push_cast [value.1]
        ring
    rw [List.foldl_cons, foldl_pushDigit_value (fun x mem => digits x (List.mem_cons_of_mem c mem)), step,
      decimalValue_cons, List.length_cons]
    push_cast
    ring

/-- Without trailing zeros: the mantissa is zero or not a multiple of ten. -/
theorem foldl_pushDigit_normal : ∀ {ds : List Char}, (∀ c ∈ ds, isDigit c = true) → ∀ (st : Int × Nat),
    (st.1 = 0 ∨ ¬ (10 : Int) ∣ st.1) → ((ds.foldl pushDigit st).1 = 0 ∨ ¬ (10 : Int) ∣ (ds.foldl pushDigit st).1)
  | [], _, _, normal => normal
  | c :: ds, digits, st, normal => by
    apply foldl_pushDigit_normal (fun x mem => digits x (List.mem_cons_of_mem c mem))
    unfold pushDigit
    split_ifs with zero
    · exact normal
    · -- a digit from one to nine as the last one
      have value := digitOf_of_isDigit (digits c List.mem_cons_self)
      have nonzero : digitOf c ≠ 0 := fun same => zero ((digitOf_eq_zero_iff (digits c List.mem_cons_self)).mp same)
      right
      rw [pow_succ, ← mul_assoc, Int.dvd_add_right (Dvd.intro_left _ rfl)]
      intro divides
      have := Int.le_of_dvd (by omega) divides
      omega

/-- Zeros only are deferred. -/
theorem foldl_pushDigit_zeros : ∀ {ds : List Char}, (∀ c ∈ ds, c = '0') → ∀ (st : Int × Nat),
    ds.foldl pushDigit st = (st.1, st.2 + ds.length)
  | [], _, st => by simp
  | c :: ds, zeros, st => by
    rw [List.foldl_cons, foldl_pushDigit_zeros (fun x mem => zeros x (List.mem_cons_of_mem c mem)),
      pushDigit, if_pos (zeros c List.mem_cons_self), List.length_cons]
    ring_nf

/-- The zeros deferred are among the digits read. -/
theorem foldl_pushDigit_tzeros_le : ∀ (ds : List Char) (st : Int × Nat),
    (ds.foldl pushDigit st).2 ≤ st.2 + ds.length
  | [], st => by simp
  | c :: ds, st => by
    have rest := foldl_pushDigit_tzeros_le ds (pushDigit st c)
    have step : (pushDigit st c).2 ≤ st.2 + 1 := by
      unfold pushDigit
      split_ifs <;> simp
    rw [List.foldl_cons, List.length_cons]
    omega

/-! ### The exponent and the scaling -/

/-- The exponent's digits, when no check fails, make the number they denote after the
exponent so far. -/
theorem exponentRun_some : ∀ (val : List Char) {exponent result : Int} {rest : List Char},
    exponentRun val exponent = some (result, rest) →
      result = exponent * 10 ^ (val.takeWhile isDigit).length + decimalValue (val.takeWhile isDigit) ∧
        rest = val.dropWhile isDigit
  | [], exponent, result, rest, run => by
    simp only [exponentRun, Option.some.injEq, Prod.mk.injEq] at run
    obtain ⟨rfl, rfl⟩ := run
    simp [decimalValue]
  | c :: val, exponent, result, rest, run => by
    by_cases digit : isDigit c = true
    · rw [exponentRun, if_pos digit] at run
      split_ifs at run
      obtain ⟨value, rfl⟩ := exponentRun_some val run
      have d := digitOf_of_isDigit digit
      refine ⟨?_, by simp [digit]⟩
      simp only [List.takeWhile_cons, digit, if_true, List.length_cons, decimalValue_cons]
      rw [value, d.1]
      push_cast
      ring
    · simp only [exponentRun, digit, Bool.false_eq_true, if_false, Option.some.injEq, Prod.mk.injEq] at run
      obtain ⟨rfl, rfl⟩ := run
      simp [digit, decimalValue]

/-- An exponent whose digits make a number within `UPPER_BOUND / 10` passes every check. -/
theorem exponentRun_small : ∀ (val : List Char) {exponent : Int}, 0 ≤ exponent →
    exponent * 10 ^ (val.takeWhile isDigit).length + decimalValue (val.takeWhile isDigit) ≤ UPPER_BOUND / 10 →
    exponentRun val exponent =
      some (exponent * 10 ^ (val.takeWhile isDigit).length + decimalValue (val.takeWhile isDigit),
        val.dropWhile isDigit)
  | [], exponent, _, _ => by simp [exponentRun, decimalValue]
  | c :: val, exponent, nonneg, small => by
    by_cases digit : isDigit c = true
    · have d := digitOf_of_isDigit digit
      -- the number the digits make, seen from the next digit on
      have value : exponent * 10 ^ (List.takeWhile isDigit (c :: val)).length +
          decimalValue (List.takeWhile isDigit (c :: val)) =
          (exponent * 10 + digitOf c) * 10 ^ (val.takeWhile isDigit).length + decimalValue (val.takeWhile isDigit) := by
        simp only [List.takeWhile_cons, digit, if_true, List.length_cons, decimalValue_cons, pow_succ, d.1]
        push_cast
        ring
      have rest : List.dropWhile isDigit (c :: val) = List.dropWhile isDigit val := by simp [digit]
      have one : (1 : Int) ≤ 10 ^ (val.takeWhile isDigit).length := one_le_pow₀ (by norm_num)
      have digitNonneg : 0 ≤ digitOf c := by rw [d.1]; omega
      have grows : exponent ≤ (exponent * 10 + digitOf c) * 10 ^ (val.takeWhile isDigit).length := by nlinarith
      have valueNonneg : (0 : Int) ≤ decimalValue (val.takeWhile isDigit) := by positivity
      rw [value] at small ⊢
      rw [rest, exponentRun, if_pos digit, if_neg (by omega)]
      exact exponentRun_small val (by omega) small
    · rw [Bool.not_eq_true] at digit
      simp [exponentRun, digit, decimalValue]

/-- The final loop and check: the mantissa times `10 ^ count`, when it stays within
`UPPER_BOUND`. -/
theorem scaleMantissa_checked : ∀ (count : Nat) {mantissa : Int}, |mantissa| ≤ UPPER_BOUND →
    (match scaleMantissa count mantissa with
      | none => none
      | some mantissa => if mantissa > UPPER_BOUND ∨ mantissa < -UPPER_BOUND then none else some mantissa) =
    if |mantissa * 10 ^ count| ≤ UPPER_BOUND then some (mantissa * 10 ^ count) else none
  | 0, mantissa, bounded => by
    rw [abs_le] at bounded
    simp [scaleMantissa, abs_le, bounded]
  | count + 1, mantissa, bounded => by
    by_cases big : mantissa > UPPER_BOUND / 10 ∨ mantissa < -(UPPER_BOUND / 10)
    · -- one more digit than `UPPER_BOUND` allows, whatever follows
      have large : UPPER_BOUND < |mantissa * 10 ^ (count + 1)| := by
        rw [abs_mul, abs_pow, abs_of_pos (by norm_num : (0 : Int) < 10), pow_succ, ← mul_assoc]
        have grows : |mantissa| * 10 ≤ |mantissa| * 10 ^ count * 10 := by
          have : (1 : Int) ≤ 10 ^ count := one_le_pow₀ (by norm_num)
          nlinarith [abs_nonneg mantissa]
        have exceeds : UPPER_BOUND < |mantissa| * 10 := by
          unfold UPPER_BOUND at big ⊢
          rcases big with big | big <;> [rw [abs_of_pos (by omega)]; rw [abs_of_neg (by omega)]] <;> omega
        linarith
      simp only [scaleMantissa, if_pos big]
      rw [if_neg (not_le.mpr large)]
    · have fits : |mantissa * 10| ≤ UPPER_BOUND := by
        rw [abs_le]
        unfold UPPER_BOUND at big ⊢
        omega
      simp only [scaleMantissa, if_neg big]
      rw [scaleMantissa_checked count fits, mul_assoc, ← pow_succ']

/-- `finalize` returns the signed mantissa times ten to the exponent it gathers, when that
exponent lies in `[0, 18)` and the product within `UPPER_BOUND`. -/
theorem finalize_eq_some {mantissa : Int} (nonneg : 0 ≤ mantissa) (bounded : mantissa ≤ UPPER_BOUND)
    (mantissa_sign exponent_sign : Bool) (tzeros point_ofs : Nat) (exponent decimals v : Int) :
    finalize mantissa_sign mantissa tzeros point_ofs exponent_sign exponent decimals = some v ↔
      ∃ k : Nat, (k : Int) = (if exponent_sign then -exponent else exponent) - point_ofs + tzeros + decimals ∧
        k < 18 ∧ v = (if mantissa_sign then -mantissa else mantissa) * 10 ^ k ∧ |v| ≤ UPPER_BOUND := by
  have signed : |(if mantissa_sign then -mantissa else mantissa)| ≤ UPPER_BOUND := by
    split_ifs <;> simp [abs_of_nonneg nonneg, bounded]
  unfold finalize
  dsimp only
  generalize (if exponent_sign then -exponent else exponent) - point_ofs + tzeros + decimals = e
  generalize (if mantissa_sign then -mantissa else mantissa) = signedMantissa at signed ⊢
  by_cases negative : e < 0
  · rw [if_pos negative]
    simp only [reduceCtorEq, false_iff, not_exists, not_and]
    intro k same
    omega
  · rw [if_neg negative]
    by_cases large : 18 ≤ e
    · rw [if_pos large]
      simp only [reduceCtorEq, false_iff, not_exists, not_and]
      intro k same
      omega
    · rw [if_neg large, scaleMantissa_checked _ signed]
      have natural : ((e.toNat : Nat) : Int) = e := Int.toNat_of_nonneg (by omega)
      by_cases fits : |signedMantissa * 10 ^ e.toNat| ≤ UPPER_BOUND
      · rw [if_pos fits]
        constructor
        · intro same
          cases same
          exact ⟨e.toNat, natural, by omega, rfl, fits⟩
        · rintro ⟨k, exponent, -, rfl, -⟩
          have : k = e.toNat := by omega
          subst this
          rfl
      · rw [if_neg fits]
        simp only [reduceCtorEq, false_iff, not_exists, not_and]
        rintro k exponent - rfl bound
        have : k = e.toNat := by omega
        subst this
        exact fits bound

/-! ### The grammar and the value -/

/-- `0|[1-9][0-9]*`. -/
def IntegerDigits (ds : List Char) : Prop :=
  ds = ['0'] ∨ ∃ c t, ds = c :: t ∧ '1' ≤ c ∧ c ≤ '9' ∧ ∀ x ∈ t, isDigit x = true

/-- A number as the grammar `-?(0|[1-9][0-9]*)(\.[0-9]+)?([eE][+-]?[0-9]+)?` writes it: its
sign, its integer digits, the digits after its point if it has one, and the mark, sign and
digits of its exponent if it has one. -/
structure Literal where
  negative : Bool
  intDigits : List Char
  fracDigits : Option (List Char)
  exponent : Option (Char × List Char × List Char)

/-- The text after the integer part: the point and the fraction's digits. -/
def fractionText : Option (List Char) → List Char
  | none => []
  | some digits => '.' :: digits

/-- The text of the exponent: its mark, sign and digits. -/
def exponentText : Option (Char × List Char × List Char) → List Char
  | none => []
  | some (mark, sign, digits) => mark :: sign ++ digits

/-- The text of a literal. -/
def Literal.render (lit : Literal) : List Char :=
  (if lit.negative then ['-'] else []) ++ lit.intDigits ++ fractionText lit.fracDigits ++ exponentText lit.exponent

/-- `(\.[0-9]+)?`. -/
def FractionPart (frac : Option (List Char)) : Prop :=
  ∀ f, frac = some f → f ≠ [] ∧ ∀ x ∈ f, isDigit x = true

/-- `([eE][+-]?[0-9]+)?`. -/
def ExponentPart (exp : Option (Char × List Char × List Char)) : Prop :=
  ∀ mark sign digits, exp = some (mark, sign, digits) →
    (mark = 'e' ∨ mark = 'E') ∧ (sign = [] ∨ sign = ['+'] ∨ sign = ['-']) ∧ digits ≠ [] ∧
      ∀ x ∈ digits, isDigit x = true

/-- The grammar's rule for each part of a literal. -/
structure Literal.WellFormed (lit : Literal) : Prop where
  intPart : IntegerDigits lit.intDigits
  fracPart : FractionPart lit.fracDigits
  expPart : ExponentPart lit.exponent

/-- The digits after the point, none without one. -/
def Literal.fraction (lit : Literal) : List Char := lit.fracDigits.getD []

/-- The value of a written exponent, zero without one. -/
def exponentValue : Option (Char × List Char × List Char) → Int
  | none => 0
  | some (_, sign, digits) => if sign = ['-'] then -(decimalValue digits : Int) else decimalValue digits

/-- The written exponent. -/
def Literal.writtenExponent (lit : Literal) : Int := exponentValue lit.exponent

/-- The exact value of the text. -/
def Literal.value (lit : Literal) : ℚ :=
  (if lit.negative then -1 else 1) * (decimalValue (lit.intDigits ++ lit.fraction) : ℚ) *
    (10 : ℚ) ^ (lit.writtenExponent - lit.fraction.length)

/-- The digits the parser reads into the mantissa: a lone integer `0` is passed over. -/
def Literal.mantissaDigits (lit : Literal) : List Char :=
  (if lit.intDigits = ['0'] then [] else lit.intDigits) ++ lit.fraction

theorem FractionPart.none : FractionPart none := by
  intro f same
  cases same

theorem ExponentPart.none : ExponentPart none := by
  intro mark sign digits same
  cases same

theorem IntegerDigits.digits {ds : List Char} (integer : IntegerDigits ds) : ∀ x ∈ ds, isDigit x = true := by
  rcases integer with rfl | ⟨c, t, rfl, low, high, rest⟩
  · intro x mem
    rw [List.mem_singleton.mp mem]
    rfl
  · intro x mem
    rcases List.mem_cons.mp mem with rfl | mem
    · simp only [isDigit, Bool.and_eq_true, decide_eq_true_eq]
      exact ⟨Char.le_trans (by decide) low, high⟩
    · exact rest x mem

theorem Literal.WellFormed.mantissa_digits {lit : Literal} (wf : lit.WellFormed) :
    ∀ x ∈ lit.mantissaDigits, isDigit x = true := by
  intro x mem
  rcases List.mem_append.mp mem with int | frac
  · split_ifs at int
    · cases int
    · exact wf.intPart.digits x int
  · cases fracs : lit.fracDigits with
    | none => simp [Literal.fraction, fracs] at frac
    | some f =>
      rw [Literal.fraction, fracs, Option.getD_some] at frac
      exact (wf.fracPart f fracs).2 x frac

/-- The value is the parser's mantissa, times ten to its deferred zeros and the written
exponent, less the fraction's length. -/
theorem Literal.value_eq {lit : Literal} (wf : lit.WellFormed) :
    lit.value = (if lit.negative then -1 else 1) * ((lit.mantissaDigits.foldl pushDigit (0, 0)).1 : ℚ) *
      (10 : ℚ) ^ ((lit.mantissaDigits.foldl pushDigit (0, 0)).2 + lit.writtenExponent - lit.fraction.length) := by
  have value := foldl_pushDigit_value wf.mantissa_digits (0, 0)
  simp only [zero_mul, zero_add] at value
  -- the lone `0` adds nothing to the number the digits make
  have same : decimalValue (lit.intDigits ++ lit.fraction) = decimalValue lit.mantissaDigits := by
    rw [Literal.mantissaDigits]
    split_ifs with zero
    · rw [zero, decimalValue_append, List.nil_append]
      simp [decimalValue]
    · rfl
  rw [Literal.value, same, ← Int.cast_natCast (decimalValue _), ← value]
  push_cast
  rw [add_sub_assoc, zpow_add₀ (by norm_num : (10 : ℚ) ≠ 0), zpow_natCast]
  ring

/-! ### The phases against the grammar -/

/-- Digits followed by a text that does not start with one: the run is the digits. -/
theorem takeWhile_digits_append {ds rest : List Char} (digits : ∀ c ∈ ds, isDigit c = true)
    (stop : ∀ c ∈ rest.head?, isDigit c = false) :
    (ds ++ rest).takeWhile isDigit = ds ∧ (ds ++ rest).dropWhile isDigit = rest := by
  induction ds with
  | nil =>
    cases rest with
    | nil => simp
    | cons c rest => simp [stop c rfl]
  | cons c ds ih =>
    obtain ⟨taken, dropped⟩ := ih fun x mem => digits x (List.mem_cons_of_mem c mem)
    simp [digits c List.mem_cons_self, taken, dropped]

theorem readSign_text (val : List Char) :
    (if (readSign val).1 then ['-'] else []) ++ (readSign val).2 = val := by
  unfold readSign
  split <;> rfl

theorem readSign_signed (negative : Bool) {rest : List Char} (unsigned : ∀ c ∈ rest.head?, c ≠ '-') :
    readSign ((if negative then ['-'] else []) ++ rest) = (negative, rest) := by
  cases negative with
  | true => rfl
  | false =>
    cases rest with
    | nil => rfl
    | cons c rest =>
      have other : c ≠ '-' := unsigned c rfl
      unfold readSign
      split
      · rename_i same
        simp only [Bool.false_eq_true, if_false, List.nil_append, List.cons.injEq] at same
        exact absurd same.1 other
      · rfl

/-- A successful integer part: `0`, or a run of digits from a nonzero one, whose mantissa
passed the check. -/
theorem readInteger_some {val rest : List Char} {mantissa : Int} {tzeros : Nat}
    (read : readInteger val = some (mantissa, tzeros, rest)) :
    ∃ ds, IntegerDigits ds ∧ val = ds ++ rest ∧
      (mantissa, tzeros) = (if ds = ['0'] then [] else ds).foldl pushDigit (0, 0) ∧ 0 ≤ mantissa ∧
        mantissa ≤ UPPER_BOUND := by
  cases val with
  | nil => simp [readInteger] at read
  | cons c val =>
    simp only [readInteger] at read
    by_cases zero : c = '0'
    · simp only [if_pos zero, Option.some.injEq, Prod.mk.injEq] at read
      obtain ⟨rfl, rfl, rfl⟩ := read
      exact ⟨['0'], Or.inl rfl, by rw [zero]; rfl, by simp, le_refl 0, by decide⟩
    · rw [if_neg zero] at read
      split_ifs at read with nonzero
      rw [mantissaRun_eq _ _ _ (le_refl 0) (by decide)] at read
      by_cases fits : (pushDigits (c :: val) (0, 0)).1 ≤ UPPER_BOUND
      swap
      · simp [fits] at read
      simp only [if_pos fits, Option.map_some, Option.some.injEq, Prod.mk.injEq] at read
      obtain ⟨rfl, rfl, rfl⟩ := read
      have digit : isDigit c = true := by
        simp only [isDigit, Bool.and_eq_true, decide_eq_true_eq]
        exact ⟨Char.le_trans (by decide) nonzero.1, nonzero.2⟩
      have taken : (c :: val).takeWhile isDigit = c :: val.takeWhile isDigit := by simp [digit]
      refine ⟨(c :: val).takeWhile isDigit, Or.inr ⟨c, val.takeWhile isDigit, taken, nonzero.1, nonzero.2,
        fun x mem => List.mem_takeWhile_imp mem⟩, (List.takeWhile_append_dropWhile).symm, ?_,
        le_foldl_pushDigit (fun x mem => List.mem_takeWhile_imp mem) (0, 0) (le_refl 0), fits⟩
      rw [taken, if_neg (fun same => zero (List.cons.inj same).1)]
      simp only [pushDigits, taken]

/-- An integer part followed by a text that does not start with a digit. -/
theorem readInteger_digits {ds rest : List Char} (integer : IntegerDigits ds)
    (stop : ∀ c ∈ rest.head?, isDigit c = false)
    (fits : ((if ds = ['0'] then [] else ds).foldl pushDigit (0, 0)).1 ≤ UPPER_BOUND) :
    readInteger (ds ++ rest) = some (((if ds = ['0'] then [] else ds).foldl pushDigit (0, 0)).1,
      ((if ds = ['0'] then [] else ds).foldl pushDigit (0, 0)).2, rest) := by
  rcases integer with rfl | ⟨c, t, rfl, low, high, digits⟩
  · rfl
  · have nonzero : c ≠ '0' := fun same => absurd low (by rw [same]; decide)
    have all : ∀ x ∈ c :: t, isDigit x = true := IntegerDigits.digits (Or.inr ⟨c, t, rfl, low, high, digits⟩)
    obtain ⟨taken, dropped⟩ := takeWhile_digits_append all stop
    rw [if_neg (fun same => nonzero (List.cons.inj same).1)] at fits ⊢
    rw [List.cons_append, readInteger, if_neg nonzero, if_pos ⟨low, high⟩, ← List.cons_append,
      mantissaRun_eq _ _ _ (le_refl 0) (by decide)]
    simp only [pushDigits, taken, dropped, if_pos fits, Option.map_some]

theorem readFraction_point {c : Char} (digit : isDigit c = true) (mantissa : Int) (tzeros : Nat) (val : List Char) :
    readFraction mantissa tzeros ('.' :: c :: val) = mantissaRun (c :: val) mantissa tzeros 0 := by
  simp [readFraction, digit]

/-- A successful fraction: nothing, or a point and a run of digits whose mantissa passed the
check. -/
theorem readFraction_some {val rest : List Char} {mantissa mantissa' : Int} {tzeros tzeros' point_ofs : Nat}
    (nonneg : 0 ≤ mantissa) (bounded : mantissa ≤ UPPER_BOUND)
    (read : readFraction mantissa tzeros val = some (mantissa', tzeros', point_ofs, rest)) :
    ∃ frac, FractionPart frac ∧ val = fractionText frac ++ rest ∧
      (mantissa', tzeros') = (frac.getD []).foldl pushDigit (mantissa, tzeros) ∧
      point_ofs = (frac.getD []).length ∧ mantissa' ≤ UPPER_BOUND := by
  unfold readFraction at read
  split at read
  · rename_i digits
    split at read
    · rename_i c more
      split_ifs at read with digit
      rw [mantissaRun_eq _ _ _ nonneg bounded] at read
      split_ifs at read with fits
      simp only [Option.some.injEq, Prod.mk.injEq] at read
      obtain ⟨rfl, rfl, rfl, rfl⟩ := read
      have taken : (c :: more).takeWhile isDigit = c :: more.takeWhile isDigit := by simp [digit]
      refine ⟨some ((c :: more).takeWhile isDigit), ?_, ?_, rfl, by simp, fits⟩
      · intro f same
        cases same
        exact ⟨by rw [taken]; simp, fun x mem => List.mem_takeWhile_imp mem⟩
      · rw [fractionText, List.cons_append, List.takeWhile_append_dropWhile]
    · cases read
  · simp only [Option.some.injEq, Prod.mk.injEq] at read
    obtain ⟨rfl, rfl, rfl, rfl⟩ := read
    exact ⟨none, FractionPart.none, rfl, rfl, rfl, bounded⟩

/-- A fraction followed by a text that starts with neither a digit nor, without the
fraction, a point. -/
theorem readFraction_digits {frac : Option (List Char)} {rest : List Char} (fraction : FractionPart frac)
    (stop : ∀ c ∈ rest.head?, isDigit c = false) (noPoint : frac = none → ∀ c ∈ rest.head?, c ≠ '.')
    (st : Int × Nat) (nonneg : 0 ≤ st.1) (bounded : st.1 ≤ UPPER_BOUND)
    (fits : ((frac.getD []).foldl pushDigit st).1 ≤ UPPER_BOUND) :
    readFraction st.1 st.2 (fractionText frac ++ rest) =
      some (((frac.getD []).foldl pushDigit st).1, ((frac.getD []).foldl pushDigit st).2, (frac.getD []).length, rest) := by
  obtain ⟨mantissa, tzeros⟩ := st
  cases frac with
  | none =>
    cases rest with
    | nil => rfl
    | cons c rest =>
      have other : c ≠ '.' := noPoint rfl c rfl
      unfold readFraction
      split
      · rename_i same
        exact absurd (List.cons.inj same).1 other
      · rfl
  | some f =>
    obtain ⟨nonempty, digits⟩ := fraction f rfl
    obtain ⟨taken, dropped⟩ := takeWhile_digits_append digits stop
    obtain ⟨c, more, rfl⟩ := List.exists_cons_of_ne_nil nonempty
    rw [fractionText, List.cons_append, List.cons_append, readFraction_point (digits c List.mem_cons_self),
      ← List.cons_append, mantissaRun_eq _ _ _ nonneg bounded]
    simp only [pushDigits, taken, dropped, Option.getD_some] at fits ⊢
    rw [if_pos fits]
    simp

theorem readExponentSign_text (val : List Char) :
    ∃ sign, (sign = [] ∨ sign = ['+'] ∨ sign = ['-']) ∧ val = sign ++ (readExponentSign val).2 ∧
      ((readExponentSign val).1 = true ↔ sign = ['-']) := by
  unfold readExponentSign
  split
  · exact ⟨['+'], by simp, rfl, by simp⟩
  · exact ⟨['-'], by simp, rfl, by simp⟩
  · exact ⟨[], by simp, rfl, by simp⟩

theorem readExponentSign_signed {sign : List Char} (signs : sign = [] ∨ sign = ['+'] ∨ sign = ['-'])
    {d : Char} (digit : isDigit d = true) (more : List Char) :
    readExponentSign (sign ++ d :: more) = (decide (sign = ['-']), d :: more) := by
  rcases signs with rfl | rfl | rfl
  · have plain : d ≠ '+' ∧ d ≠ '-' := by
      constructor <;> (rintro rfl; exact absurd digit (by decide))
    unfold readExponentSign
    split
    · rename_i same
      exact absurd (List.cons.inj same).1 plain.1
    · rename_i same
      exact absurd (List.cons.inj same).1 plain.2
    · rfl
  · rfl
  · rfl

/-- A successful exponent: nothing, or a mark, a sign and a run of digits that passed the
check; with its sign it is the written exponent. -/
theorem readExponent_some {val rest : List Char} {exponent_sign : Bool} {exponent : Int}
    (read : readExponent val = some (exponent_sign, exponent, rest)) :
    ∃ exp, ExponentPart exp ∧ val = exponentText exp ++ rest ∧
      (if exponent_sign then -exponent else exponent) = exponentValue exp := by
  cases val with
  | nil =>
    simp only [readExponent, Option.some.injEq, Prod.mk.injEq] at read
    obtain ⟨rfl, rfl, rfl⟩ := read
    exact ⟨none, ExponentPart.none, rfl, rfl⟩
  | cons c val =>
    by_cases mark : c = 'e' ∨ c = 'E'
    · obtain ⟨sign, signs, text, negative⟩ := readExponentSign_text val
      simp only [readExponent, if_pos mark] at read
      generalize readExponentSign val = signed at read text negative
      obtain ⟨signBit, digits⟩ := signed
      cases digits with
      | nil => cases read
      | cons d more =>
        dsimp only at read text negative
        split_ifs at read with digit
        cases run : exponentRun (d :: more) 0 with
        | none => simp [run] at read
        | some result =>
          obtain ⟨e, rest'⟩ := result
          simp only [run, Option.map_some, Option.some.injEq, Prod.mk.injEq] at read
          obtain ⟨rfl, rfl, rfl⟩ := read
          obtain ⟨value, rfl⟩ := exponentRun_some _ run
          have taken : (d :: more).takeWhile isDigit = d :: more.takeWhile isDigit := by simp [digit]
          refine ⟨some (c, sign, (d :: more).takeWhile isDigit), ?_, ?_, ?_⟩
          · intro mark' sign' digits' same
            simp only [Option.some.injEq, Prod.mk.injEq] at same
            obtain ⟨rfl, rfl, rfl⟩ := same
            exact ⟨mark, signs, by rw [taken]; simp, fun x mem => List.mem_takeWhile_imp mem⟩
          · simp only [exponentText, text, List.cons_append, List.append_assoc, List.takeWhile_append_dropWhile]
          · rw [exponentValue, value, zero_mul, zero_add]
            by_cases minus : sign = ['-']
            · rw [if_pos (negative.mpr minus), if_pos minus]
            · rw [if_neg (fun set => minus (negative.mp set)), if_neg minus]
    · simp only [readExponent, if_neg mark, Option.some.injEq, Prod.mk.injEq] at read
      obtain ⟨rfl, rfl, rfl⟩ := read
      exact ⟨none, ExponentPart.none, rfl, rfl⟩

/-- An exponent whose digits make a number within `UPPER_BOUND / 10`, at the end of the text. -/
theorem readExponent_digits {exp : Option (Char × List Char × List Char)} (exponent : ExponentPart exp)
    (small : |exponentValue exp| ≤ UPPER_BOUND / 10) :
    ∃ exponent_sign e, readExponent (exponentText exp) = some (exponent_sign, e, []) ∧
      (if exponent_sign then -e else e) = exponentValue exp := by
  cases exp with
  | none => exact ⟨false, 0, rfl, rfl⟩
  | some written =>
    obtain ⟨mark, sign, digits⟩ := written
    obtain ⟨marks, signs, nonempty, all⟩ := exponent mark sign digits rfl
    obtain ⟨d, more, rfl⟩ := List.exists_cons_of_ne_nil nonempty
    obtain ⟨taken, dropped⟩ := takeWhile_digits_append all (show ∀ c ∈ ([] : List Char).head?, isDigit c = false by simp)
    rw [List.append_nil] at taken dropped
    have magnitude : (decimalValue (d :: more) : Int) ≤ UPPER_BOUND / 10 := by
      rw [exponentValue] at small
      split_ifs at small
      · rwa [abs_neg, abs_of_nonneg (by positivity)] at small
      · rwa [abs_of_nonneg (by positivity)] at small
    have run := exponentRun_small (d :: more) (le_refl 0) (by rw [taken, zero_mul, zero_add]; exact magnitude)
    rw [taken, dropped, zero_mul, zero_add] at run
    refine ⟨decide (sign = ['-']), decimalValue (d :: more), ?_, ?_⟩
    · simp only [exponentText, List.cons_append, readExponent, if_pos marks,
        readExponentSign_signed signs (all d List.mem_cons_self), all d List.mem_cons_self, if_true, run,
        Option.map_some]
    · rw [exponentValue]
      by_cases minus : sign = ['-'] <;> simp [minus]

/-- The phases of a successful parse. -/
theorem parseFixedPoint_eq_some {val : List Char} {decimals v : Int} :
    parseFixedPoint val decimals = some v ↔
      ∃ integer fraction exponent,
        readInteger (readSign val).2 = some integer ∧
        readFraction integer.1 integer.2.1 integer.2.2 = some fraction ∧
        readExponent fraction.2.2.2 = some exponent ∧ exponent.2.2 = [] ∧
        finalize (readSign val).1 fraction.1 fraction.2.1 fraction.2.2.1 exponent.1 exponent.2.1 decimals = some v := by
  unfold parseFixedPoint
  simp only [bind, Option.bind_eq_some_iff]
  constructor
  · rintro ⟨integer, readI, fraction, readF, exponent, readE, done⟩
    split_ifs at done with trailing
    exact ⟨integer, fraction, exponent, readI, readF, readE, not_not.mp trailing, done⟩
  · rintro ⟨integer, fraction, exponent, readI, readF, readE, trailing, done⟩
    exact ⟨integer, readI, fraction, readF, exponent, readE, by rw [if_neg (not_not.mpr trailing)]; exact done⟩

/-! ### The parser against the grammar -/

/-- The parser's mantissa: the integer part's, then the fraction's digits after it. -/
theorem Literal.foldl_mantissaDigits (lit : Literal) :
    lit.mantissaDigits.foldl pushDigit (0, 0) =
      lit.fraction.foldl pushDigit ((if lit.intDigits = ['0'] then [] else lit.intDigits).foldl pushDigit (0, 0)) := by
  rw [Literal.mantissaDigits, List.foldl_append]

/-- A zero mantissa: the integer part is `0`, and every digit of the fraction a zero
deferred. -/
theorem Literal.WellFormed.tzeros_of_zero {lit : Literal} (wf : lit.WellFormed)
    (zero : (lit.mantissaDigits.foldl pushDigit (0, 0)).1 = 0) :
    (lit.mantissaDigits.foldl pushDigit (0, 0)).2 = lit.fraction.length := by
  have value := foldl_pushDigit_value wf.mantissa_digits (0, 0)
  rw [zero, zero_mul] at value
  simp only [zero_mul, zero_add] at value
  have zeros := (decimalValue_eq_zero_iff wf.mantissa_digits).mp (by exact_mod_cast value.symm)
  -- a nonzero first digit of the integer part would be among the zeros
  have plain : lit.mantissaDigits = lit.fraction := by
    rw [Literal.mantissaDigits]
    split_ifs with lone
    · rfl
    · rcases wf.intPart with same | ⟨c, t, same, low, -, -⟩
      · exact absurd same lone
      · have first : c = '0' := zeros c (by rw [Literal.mantissaDigits, if_neg lone, same]; simp)
        exact absurd low (by rw [first]; decide)
  rw [plain, foldl_pushDigit_zeros (plain ▸ zeros) (0, 0), zero_add]

/-- A mantissa that is not a multiple of ten, times a power of ten, is an integer only at a
power that is not negative. -/
theorem exponent_nonneg_of_integer {m v : Int} (normal : ¬ (10 : Int) ∣ m) {x : Int}
    (same : (v : ℚ) = m * 10 ^ x) : 0 ≤ x := by
  by_contra negative
  obtain ⟨k, rfl⟩ : ∃ k : Nat, x = -((k + 1 : Nat) : Int) := ⟨(-x - 1).toNat, by omega⟩
  rw [zpow_neg, zpow_natCast] at same
  have scaled : (v : ℚ) * 10 ^ (k + 1) = m := by
    rw [same, mul_assoc, inv_mul_cancel₀ (pow_ne_zero _ (by norm_num)), mul_one]
  have cast : v * 10 ^ (k + 1) = m := by exact_mod_cast scaled
  exact normal ⟨v * 10 ^ k, by rw [← cast, pow_succ]; ring⟩

/-- What the parser accepts is in the grammar, and it returns the value of the text times
`10 ^ decimals`, within `UPPER_BOUND`; a zero only with its exponent in range. -/
theorem parseFixedPoint_sound {val : List Char} {decimals v : Int} (parsed : parseFixedPoint val decimals = some v) :
    ∃ lit : Literal, lit.WellFormed ∧ lit.render = val ∧ (v : ℚ) = lit.value * 10 ^ decimals ∧
      |v| ≤ UPPER_BOUND ∧ (lit.value ≠ 0 ∨ 0 ≤ lit.writtenExponent + decimals ∧ lit.writtenExponent + decimals < 18) := by
  obtain ⟨⟨m₁, t₁, val₁⟩, ⟨m₂, t₂, point_ofs, val₂⟩, ⟨exponent_sign, exponent, val₃⟩, readI, readF, readE,
    trailing, done⟩ := parseFixedPoint_eq_some.mp parsed
  dsimp only at readF readE trailing done
  subst trailing
  obtain ⟨int, intPart, intText, intMantissa, intNonneg, intBound⟩ := readInteger_some readI
  obtain ⟨frac, fracPart, fracText, fracMantissa, pointLength, fracBound⟩ := readFraction_some intNonneg intBound readF
  obtain ⟨exp, expPart, expText, expValue⟩ := readExponent_some readE
  rw [List.append_nil] at expText
  let lit : Literal := ⟨(readSign val).1, int, frac, exp⟩
  have wf : lit.WellFormed := ⟨intPart, fracPart, expPart⟩
  -- the mantissa the parser made is the literal's
  have mantissa : lit.mantissaDigits.foldl pushDigit (0, 0) = (m₂, t₂) := by
    rw [Literal.foldl_mantissaDigits, ← intMantissa, fracMantissa]
    rfl
  have nonneg : 0 ≤ m₂ := by
    have := le_foldl_pushDigit wf.mantissa_digits (0, 0) (le_refl 0)
    rw [mantissa] at this
    exact this
  obtain ⟨k, exponentIs, small, valueIs, bounded⟩ :=
    (finalize_eq_some nonneg fracBound _ _ _ _ _ _ _).mp done
  rw [expValue] at exponentIs
  have exponentSum : (t₂ : Int) + lit.writtenExponent - lit.fraction.length + decimals = k := by
    rw [exponentIs]
    simp only [lit, Literal.writtenExponent, Literal.fraction, pointLength]
    ring
  have value : lit.value * 10 ^ decimals = ((if lit.negative then -m₂ else m₂ : Int) : ℚ) * 10 ^ (k : Int) := by
    rw [Literal.value_eq wf, mantissa, mul_assoc _ _ ((10 : ℚ) ^ decimals)]
    dsimp only
    rw [← zpow_add₀ (by norm_num : (10 : ℚ) ≠ 0), exponentSum]
    split_ifs <;> push_cast <;> ring
  refine ⟨lit, wf, ?_, ?_, bounded, ?_⟩
  · simp only [lit, Literal.render]
    rw [List.append_assoc, List.append_assoc, ← expText, ← fracText, ← intText, readSign_text]
  · rw [value, valueIs, zpow_natCast]
    push_cast
    rfl
  · by_cases zero : m₂ = 0
    · -- a zero mantissa: the exponent gathered is the written one plus `decimals`
      right
      have tzeros := wf.tzeros_of_zero (by rw [mantissa]; exact zero)
      rw [mantissa] at tzeros
      dsimp only at tzeros
      omega
    · left
      intro vanishes
      rw [Literal.value_eq wf, mantissa] at vanishes
      simp only [mul_eq_zero, zpow_ne_zero _ (by norm_num : (10 : ℚ) ≠ 0), or_false] at vanishes
      rcases vanishes with sign | m
      · split_ifs at sign <;> norm_num at sign
      · exact zero (by exact_mod_cast m)

/-! ### The grammar against the parser -/

/-- An integer part starts with a digit, so never with a sign. -/
theorem IntegerDigits.unsigned {ds : List Char} (integer : IntegerDigits ds) (rest : List Char) :
    ∀ c ∈ (ds ++ rest).head?, c ≠ '-' := by
  rcases integer with rfl | ⟨c, t, rfl, low, -, -⟩
  · intro x mem
    rw [List.cons_append, List.head?_cons, Option.mem_some_iff] at mem
    subst mem
    decide
  · intro x mem
    rw [List.cons_append, List.head?_cons, Option.mem_some_iff] at mem
    subst mem
    rintro rfl
    exact absurd low (by decide)

/-- An exponent's text starts with its mark. -/
theorem ExponentPart.head_mark {exp : Option (Char × List Char × List Char)} (exponent : ExponentPart exp) :
    ∀ c ∈ (exponentText exp).head?, c = 'e' ∨ c = 'E' := by
  cases exp with
  | none => simp [exponentText]
  | some written =>
    obtain ⟨mark, sign, digits⟩ := written
    intro c mem
    rw [exponentText, List.cons_append, List.head?_cons, Option.mem_some_iff] at mem
    subst mem
    exact (exponent _ _ _ rfl).1

theorem ExponentPart.stop {exp : Option (Char × List Char × List Char)} (exponent : ExponentPart exp) :
    ∀ c ∈ (exponentText exp).head?, isDigit c = false ∧ c ≠ '.' := by
  intro c mem
  rcases exponent.head_mark c mem with rfl | rfl <;> decide

/-- The text after the integer part starts with a point, a mark or nothing. -/
theorem fractionText_stop (frac : Option (List Char)) {rest : List Char}
    (stop : ∀ c ∈ rest.head?, isDigit c = false) : ∀ c ∈ (fractionText frac ++ rest).head?, isDigit c = false := by
  cases frac with
  | none => exact stop
  | some digits =>
    intro c mem
    rw [fractionText, List.cons_append, List.head?_cons, Option.mem_some_iff] at mem
    subst mem
    rfl

/-- The digits of the mantissa are among the characters of the text. -/
theorem Literal.length_mantissaDigits_le (lit : Literal) : lit.mantissaDigits.length ≤ lit.render.length := by
  have point : lit.fraction.length ≤ (fractionText lit.fracDigits).length := by
    cases fracs : lit.fracDigits <;> simp [Literal.fraction, fractionText, fracs]
  have int : (if lit.intDigits = ['0'] then [] else lit.intDigits).length ≤ lit.intDigits.length := by
    split_ifs <;> simp
  simp only [Literal.mantissaDigits, Literal.render, List.length_append]
  omega

/-- The magnitude of a signed mantissa scaled by a power of ten. -/
theorem abs_signed_mul_pow {m : Int} (nonneg : 0 ≤ m) (negative : Bool) (k : Nat) :
    |(if negative then -m else m) * 10 ^ k| = m * 10 ^ k := by
  rw [abs_mul, abs_pow, abs_of_pos (by norm_num : (0 : Int) < 10)]
  split_ifs <;> simp [abs_of_nonneg nonneg]

/-- The value times `10 ^ decimals`, an integer within `UPPER_BOUND`, is the parser's signed
mantissa times ten to the exponent `finalize` gathers, and that exponent lies in `[0, 18)`:
a mantissa without trailing zeros makes an integer only at an exponent not negative, and is
at least one; a zero mantissa has every fraction digit deferred and the written exponent in
range. -/
theorem Literal.WellFormed.scaled {lit : Literal} (wf : lit.WellFormed) {decimals v : Int}
    (value : (v : ℚ) = lit.value * 10 ^ decimals) (bounded : |v| ≤ UPPER_BOUND)
    (zero : lit.value ≠ 0 ∨ 0 ≤ lit.writtenExponent + decimals ∧ lit.writtenExponent + decimals < 18) :
    ∃ k : Nat, (k : Int) = (lit.mantissaDigits.foldl pushDigit (0, 0)).2 + lit.writtenExponent -
        lit.fraction.length + decimals ∧ k < 18 ∧
      v = (if lit.negative then -(lit.mantissaDigits.foldl pushDigit (0, 0)).1
        else (lit.mantissaDigits.foldl pushDigit (0, 0)).1) * 10 ^ k := by
  have valueIs := Literal.value_eq wf
  have tzeros := wf.tzeros_of_zero
  have normal := foldl_pushDigit_normal wf.mantissa_digits (0, 0) (Or.inl rfl)
  have nonneg := le_foldl_pushDigit wf.mantissa_digits (0, 0) (le_refl 0)
  generalize lit.mantissaDigits.foldl pushDigit (0, 0) = st at valueIs tzeros normal nonneg ⊢
  obtain ⟨m, t⟩ := st
  dsimp only at valueIs tzeros normal nonneg ⊢
  have key : (v : ℚ) = ((if lit.negative then -m else m : Int) : ℚ) *
      10 ^ ((t : Int) + lit.writtenExponent - lit.fraction.length + decimals) := by
    rw [value, valueIs, mul_assoc _ _ ((10 : ℚ) ^ decimals), ← zpow_add₀ (by norm_num : (10 : ℚ) ≠ 0)]
    split_ifs <;> push_cast <;> ring
  by_cases vanishes : m = 0
  · -- zero: the written exponent plus `decimals` is the exponent, in range by the clause
    subst vanishes
    have written := zero.resolve_left (by rw [valueIs]; simp)
    have deferred := tzeros rfl
    have vZero : v = 0 := by
      rw [key] at value
      exact_mod_cast (show (v : ℚ) = 0 by rw [key]; simp)
    refine ⟨(lit.writtenExponent + decimals).toNat, by omega, by omega, ?_⟩
    rw [vZero]
    simp
  · -- a mantissa without trailing zeros: the exponent is not negative, and below 18 since
    -- the mantissa is at least one
    have signedNormal : ¬ (10 : Int) ∣ (if lit.negative then -m else m) := by
      split_ifs
      · rw [Int.dvd_neg]
        exact normal.resolve_left vanishes
      · exact normal.resolve_left vanishes
    have natural := exponent_nonneg_of_integer signedNormal key
    obtain ⟨k, exponentIs⟩ : ∃ k : Nat, (k : Int) = (t : Int) + lit.writtenExponent - lit.fraction.length + decimals :=
      ⟨_, Int.toNat_of_nonneg natural⟩
    rw [← exponentIs, zpow_natCast] at key
    have vIs : v = (if lit.negative then -m else m) * 10 ^ k := by exact_mod_cast key
    have magnitude := abs_signed_mul_pow nonneg lit.negative k
    have small : k < 18 := by
      by_contra large
      have power : (10 : Int) ^ 18 ≤ 10 ^ k := pow_le_pow_right₀ (by norm_num) (by omega)
      have grows : (10 : Int) ^ k ≤ m * 10 ^ k := le_mul_of_one_le_left (by positivity) (by omega)
      rw [← vIs] at magnitude
      unfold UPPER_BOUND at bounded
      omega
    exact ⟨k, exponentIs, small, vIs⟩

/-- What is in the grammar, with the value times `10 ^ decimals` an integer within
`UPPER_BOUND`, the parser reads, for `decimals` in `[0, 17]` and texts shorter than `2 ^ 31`
characters; a zero only with its written exponent plus `decimals` in `[0, 18)`. -/
theorem parseFixedPoint_complete {decimals : Int} (low : 0 ≤ decimals) (high : decimals ≤ 17)
    {lit : Literal} (wf : lit.WellFormed) (short : lit.render.length < 2 ^ 31) {v : Int}
    (value : (v : ℚ) = lit.value * 10 ^ decimals) (bounded : |v| ≤ UPPER_BOUND)
    (zero : lit.value ≠ 0 ∨ 0 ≤ lit.writtenExponent + decimals ∧ lit.writtenExponent + decimals < 18) :
    parseFixedPoint lit.render decimals = some v := by
  obtain ⟨k, exponentIs, small, vIs⟩ := wf.scaled value bounded zero
  have mantissa := Literal.foldl_mantissaDigits lit
  have nonneg := le_foldl_pushDigit wf.mantissa_digits (0, 0) (le_refl 0)
  have deferred := foldl_pushDigit_tzeros_le lit.mantissaDigits (0, 0)
  have length := lit.length_mantissaDigits_le
  have pointLength : lit.fraction.length ≤ lit.mantissaDigits.length := by
    simp [Literal.mantissaDigits]
  generalize lit.mantissaDigits.foldl pushDigit (0, 0) = st at mantissa exponentIs vIs nonneg deferred
  obtain ⟨m, t⟩ := st
  dsimp only at exponentIs vIs nonneg deferred
  -- the mantissa within `UPPER_BOUND`, and the integer part's before the fraction's digits
  have mBound : m ≤ UPPER_BOUND := by
    have grows : m ≤ m * 10 ^ k := le_mul_of_one_le_right nonneg (one_le_pow₀ (by norm_num))
    rw [← abs_signed_mul_pow nonneg lit.negative k, ← vIs] at grows
    exact grows.trans bounded
  have intDigits : ∀ x ∈ (if lit.intDigits = ['0'] then [] else lit.intDigits), isDigit x = true := by
    intro x mem
    split_ifs at mem
    · cases mem
    · exact wf.intPart.digits x mem
  have fracDigits : ∀ x ∈ lit.fraction, isDigit x = true := fun x mem =>
    wf.mantissa_digits x (List.mem_append_right _ mem)
  have intNonneg := le_foldl_pushDigit intDigits (0, 0) (le_refl 0)
  have fracFits : (lit.fraction.foldl pushDigit ((if lit.intDigits = ['0'] then [] else lit.intDigits).foldl
      pushDigit (0, 0))).1 ≤ UPPER_BOUND := by
    rw [← mantissa]
    exact mBound
  have intBound := (le_foldl_pushDigit fracDigits _ intNonneg).trans fracFits
  -- the written exponent is small: the exponent gathered lies in `[0, 18)`
  have expSmall : |exponentValue lit.exponent| ≤ UPPER_BOUND / 10 := by
    have written : lit.writtenExponent = exponentValue lit.exponent := rfl
    rw [abs_le]
    unfold UPPER_BOUND
    omega
  obtain ⟨exponent_sign, e, readE, signed⟩ := readExponent_digits wf.expPart expSmall
  have readF := readFraction_digits wf.fracPart (fun c mem => (wf.expPart.stop c mem).1)
    (fun _ c mem => (wf.expPart.stop c mem).2) _ intNonneg intBound fracFits
  have readI := readInteger_digits wf.intPart (fractionText_stop lit.fracDigits fun c mem => (wf.expPart.stop c mem).1)
    intBound
  have readS := readSign_signed lit.negative (wf.intPart.unsigned (fractionText lit.fracDigits ++ exponentText lit.exponent))
  have fractionIs : lit.fracDigits.getD [] = lit.fraction := rfl
  rw [fractionIs, ← mantissa] at readF
  apply parseFixedPoint_eq_some.mpr
  refine ⟨(_, _, fractionText lit.fracDigits ++ exponentText lit.exponent), (m, t, lit.fraction.length, exponentText lit.exponent),
    (exponent_sign, e, []), ?_, readF, readE, rfl, ?_⟩
  · rw [Literal.render, List.append_assoc, List.append_assoc, readS]
    exact readI
  · rw [Literal.render, List.append_assoc, List.append_assoc, readS]
    refine (finalize_eq_some nonneg mBound _ _ _ _ _ _ _).mpr ⟨k, ?_, small, vIs, bounded⟩
    rw [signed, exponentIs]
    dsimp only [Literal.writtenExponent]
    ring

/-! ### The grammar is unambiguous -/

/-- Digits before a text without a digit at its head: the split is the text's. -/
theorem digits_append_inj {ds₁ ds₂ rest₁ rest₂ : List Char} (digits₁ : ∀ c ∈ ds₁, isDigit c = true)
    (digits₂ : ∀ c ∈ ds₂, isDigit c = true) (stop₁ : ∀ c ∈ rest₁.head?, isDigit c = false)
    (stop₂ : ∀ c ∈ rest₂.head?, isDigit c = false) (same : ds₁ ++ rest₁ = ds₂ ++ rest₂) :
    ds₁ = ds₂ ∧ rest₁ = rest₂ := by
  obtain ⟨taken₁, dropped₁⟩ := takeWhile_digits_append digits₁ stop₁
  obtain ⟨taken₂, dropped₂⟩ := takeWhile_digits_append digits₂ stop₂
  rw [same] at taken₁ dropped₁
  exact ⟨taken₁.symm.trans taken₂, dropped₁.symm.trans dropped₂⟩

/-- The text of an exponent determines it. -/
theorem ExponentPart.text_inj {exp₁ exp₂ : Option (Char × List Char × List Char)} (wf₁ : ExponentPart exp₁)
    (wf₂ : ExponentPart exp₂) (same : exponentText exp₁ = exponentText exp₂) : exp₁ = exp₂ := by
  cases exp₁ with
  | none =>
    cases exp₂ with
    | none => rfl
    | some written => simp [exponentText] at same
  | some written₁ =>
    cases exp₂ with
    | none => simp [exponentText] at same
    | some written₂ =>
      obtain ⟨mark₁, sign₁, digits₁⟩ := written₁
      obtain ⟨mark₂, sign₂, digits₂⟩ := written₂
      obtain ⟨-, signs₁, nonempty₁, all₁⟩ := wf₁ _ _ _ rfl
      obtain ⟨-, signs₂, nonempty₂, all₂⟩ := wf₂ _ _ _ rfl
      simp only [exponentText, List.cons_append, List.cons.injEq] at same
      obtain ⟨rfl, text⟩ := same
      obtain ⟨d₁, more₁, rfl⟩ := List.exists_cons_of_ne_nil nonempty₁
      obtain ⟨d₂, more₂, rfl⟩ := List.exists_cons_of_ne_nil nonempty₂
      -- the digits are what the sign leaves, so the signs agree too
      have read := readExponentSign_signed signs₁ (all₁ d₁ List.mem_cons_self) more₁
      rw [text, readExponentSign_signed signs₂ (all₂ d₂ List.mem_cons_self) more₂, Prod.mk.injEq] at read
      obtain ⟨-, digits⟩ := read
      rw [← digits] at text
      rw [List.append_cancel_right text, digits]

/-- The text after the integer part determines the fraction and the exponent. -/
theorem FractionPart.text_inj {frac₁ frac₂ : Option (List Char)} {exp₁ exp₂ : Option (Char × List Char × List Char)}
    (fraction₁ : FractionPart frac₁) (fraction₂ : FractionPart frac₂) (exponent₁ : ExponentPart exp₁)
    (exponent₂ : ExponentPart exp₂) (same : fractionText frac₁ ++ exponentText exp₁ = fractionText frac₂ ++ exponentText exp₂) :
    frac₁ = frac₂ ∧ exp₁ = exp₂ := by
  -- a point after the integer part starts a fraction, never an exponent
  have point : ∀ {exp : Option (Char × List Char × List Char)}, ExponentPart exp → ∀ rest, exponentText exp ≠ '.' :: rest :=
    fun exponent rest text => (exponent.stop '.' (by rw [text]; rfl)).2 rfl
  cases frac₁ with
  | none =>
    cases frac₂ with
    | none => exact ⟨rfl, exponent₁.text_inj exponent₂ same⟩
    | some f₂ => exact absurd same (point exponent₁ _)
  | some f₁ =>
    cases frac₂ with
    | none => exact absurd same.symm (point exponent₂ _)
    | some f₂ =>
      simp only [fractionText, List.cons_append, List.cons.injEq, true_and] at same
      obtain ⟨rfl, text⟩ := digits_append_inj (fraction₁ f₁ rfl).2 (fraction₂ f₂ rfl).2
        (fun c mem => (exponent₁.stop c mem).1) (fun c mem => (exponent₂.stop c mem).1) same
      exact ⟨rfl, exponent₁.text_inj exponent₂ text⟩

/-- A text of the grammar is the text of one literal only, so its value is the text's. -/
theorem Literal.WellFormed.render_inj {lit₁ lit₂ : Literal} (wf₁ : lit₁.WellFormed) (wf₂ : lit₂.WellFormed)
    (same : lit₁.render = lit₂.render) : lit₁ = lit₂ := by
  obtain ⟨negative₁, int₁, frac₁, exp₁⟩ := lit₁
  obtain ⟨negative₂, int₂, frac₂, exp₂⟩ := lit₂
  obtain ⟨intPart₁, fracPart₁, expPart₁⟩ := wf₁
  obtain ⟨intPart₂, fracPart₂, expPart₂⟩ := wf₂
  simp only [Literal.render, List.append_assoc] at same
  have signs := congrArg readSign same
  rw [readSign_signed _ (intPart₁.unsigned _), readSign_signed _ (intPart₂.unsigned _), Prod.mk.injEq] at signs
  obtain ⟨rfl, text⟩ := signs
  obtain ⟨rfl, text⟩ := digits_append_inj intPart₁.digits intPart₂.digits
    (fractionText_stop frac₁ fun c mem => (expPart₁.stop c mem).1)
    (fractionText_stop frac₂ fun c mem => (expPart₂.stop c mem).1) text
  obtain ⟨rfl, rfl⟩ := FractionPart.text_inj fracPart₁ fracPart₂ expPart₁ expPart₂ text
  rfl

/-- `ParseFixedPoint` accepts exactly the texts of the grammar whose value times
`10 ^ decimals` is an integer within `UPPER_BOUND`, and returns that integer; a value of zero
it accepts only when its written exponent plus `decimals` lies in `[0, 18)`. -/
theorem parseFixedPoint_iff (val : List Char) {decimals : Int} (low : 0 ≤ decimals) (high : decimals ≤ 17)
    (short : val.length < 2 ^ 31) (v : Int) :
    parseFixedPoint val decimals = some v ↔
      ∃ lit : Literal, lit.WellFormed ∧ lit.render = val ∧ (v : ℚ) = lit.value * 10 ^ decimals ∧
        |v| ≤ UPPER_BOUND ∧ (lit.value ≠ 0 ∨ 0 ≤ lit.writtenExponent + decimals ∧ lit.writtenExponent + decimals < 18) := by
  constructor
  · exact parseFixedPoint_sound
  · rintro ⟨lit, wf, rfl, value, bounded, zero⟩
    exact parseFixedPoint_complete low high wf short value bounded zero

theorem parseFixedPoint_iff_oneAndHalf :
    parseFixedPoint ['1', '.', '5'] 8 = some 150000000 ↔
      ∃ lit : Literal, lit.WellFormed ∧ lit.render = ['1', '.', '5'] ∧ ((150000000 : Int) : ℚ) = lit.value * 10 ^ (8 : Int) ∧
        |(150000000 : Int)| ≤ UPPER_BOUND ∧
          (lit.value ≠ 0 ∨ 0 ≤ lit.writtenExponent + 8 ∧ lit.writtenExponent + 8 < 18) :=
  parseFixedPoint_iff _ (by decide) (by decide) (by decide) _

example : parseFixedPoint ['1', '.', '5'] 8 = some 150000000 := by decide

/-- `0e18` is in the grammar with the value zero, an integer within `UPPER_BOUND` at
`decimals = 0`, but the exponent `finalize` gathers is `18`. -/
theorem parseFixedPoint_zeroExponent :
    parseFixedPoint ['0', 'e', '1', '8'] 0 = none ∧
      ∃ lit : Literal, lit.WellFormed ∧ lit.render = ['0', 'e', '1', '8'] ∧
        ((0 : Int) : ℚ) = lit.value * 10 ^ (0 : Int) ∧ |(0 : Int)| ≤ UPPER_BOUND := by
  refine ⟨by decide, ⟨false, ['0'], none, some ('e', [], ['1', '8'])⟩, ⟨Or.inl rfl, FractionPart.none, ?_⟩, rfl, ?_, by decide⟩
  · intro mark sign digits same
    simp only [Option.some.injEq, Prod.mk.injEq] at same
    obtain ⟨rfl, rfl, rfl⟩ := same
    exact ⟨Or.inl rfl, Or.inl rfl, List.cons_ne_nil _ _, List.all_eq_true.mp (by decide)⟩
  · simp [Literal.value, Literal.fraction, decimalValue]

end MFCoin.Encoding
