/-
Module: MFCoin.Lib.ByteCodec
Purpose: Decoders over byte lists, and what makes a decoder the inverse of an encoder: it
  reads back every good value the encoder wrote and stops where the encoding stops,
  whatever bytes follow. Round trips compose: a block of bytes of known length, a known
  number of values one after another. A list with known bytes around a middle is that
  frame around its middle. The bytes of a base-128 digit, with and without the
  continuation bit, give their digit back. Masks, shifts and the or of disjoint bits are
  remainders, quotients and sums.
Trusted boundary: none
Main exports: ByteCodec.Decoder, ByteCodec.RoundTrip, ByteCodec.readBytes, ByteCodec.frame_eq,
  ByteCodec.readMany, ByteCodec.readMany_flatMap, ByteCodec.continued_digit,
  ByteCodec.final_digit, ByteCodec.and_mod_two_pow, ByteCodec.and_mask,
  ByteCodec.shiftLeft_or_of_lt
-/
import Mathlib

namespace ByteCodec

/-- A decoder reads a value from the front of the bytes and returns it with the bytes
after it; `none` when the bytes end too early or encode no value. -/
abbrev Decoder (α : Type*) := List UInt8 → Option (α × List UInt8)

variable {α : Type*}

/-- A decoder inverts an encoder on the values with `good`: whatever bytes follow an
encoding, it reads the value back and stops where the encoding stops. -/
def RoundTrip (encode : α → List UInt8) (decode : Decoder α) (good : α → Prop) : Prop :=
  ∀ a, good a → ∀ rest, decode (encode a ++ rest) = some (a, rest)

/-- A block of `count` bytes. -/
def readBytes : Nat → Decoder (List UInt8)
  | 0, bytes => some ([], bytes)
  | _ + 1, [] => none
  | count + 1, b :: bytes => (readBytes count bytes).map fun (block, rest) => (b :: block, rest)

theorem readBytes_append : ∀ (block rest : List UInt8),
    readBytes block.length (block ++ rest) = some (block, rest)
  | [], _ => rfl
  | b :: block, rest => by
    simp [readBytes, readBytes_append block rest]

/-- `count` values one after another. -/
def readMany (decode : Decoder α) : Nat → Decoder (List α)
  | 0, bytes => some ([], bytes)
  | count + 1, bytes => do
    let (a, bytes) ← decode bytes
    let (as, bytes) ← readMany decode count bytes
    return (a :: as, bytes)

/-- Values written one after another are read back one after another. -/
theorem readMany_flatMap {encode : α → List UInt8} {decode : Decoder α} {good : α → Prop}
    (roundTrip : RoundTrip encode decode good) :
    ∀ (values : List α), (∀ a ∈ values, good a) → ∀ rest,
      readMany decode values.length (values.flatMap encode ++ rest) = some (values, rest)
  | [], _, _ => rfl
  | a :: values, allGood, rest => by
    have first := roundTrip a (allGood a List.mem_cons_self) (values.flatMap encode ++ rest)
    have others := readMany_flatMap roundTrip values
      (fun b mem => allGood b (List.mem_cons_of_mem a mem)) rest
    simp only [List.length_cons, List.flatMap_cons, List.append_assoc, readMany, first,
      others, Option.bind_eq_bind, Option.bind_some]
    rfl

/-- Values written one after another are read back one after another, each as the decoder
reads it back (`f a` for `a`), where the decoder keeps only part of what was written. -/
theorem readMany_flatMap_map {β : Type*} {encode : α → List UInt8} {decode : Decoder β}
    {f : α → β} :
    ∀ (values : List α), (∀ a ∈ values, ∀ rest, decode (encode a ++ rest) = some (f a, rest)) →
      ∀ rest, readMany decode values.length (values.flatMap encode ++ rest) =
        some (values.map f, rest)
  | [], _, _ => rfl
  | a :: values, each, rest => by
    have first := each a List.mem_cons_self (values.flatMap encode ++ rest)
    have others := readMany_flatMap_map values (fun b mem => each b (List.mem_cons_of_mem a mem)) rest
    simp only [List.length_cons, List.flatMap_cons, List.append_assoc, readMany, first,
      others, Option.bind_eq_bind, Option.bind_some, List.map_cons]
    rfl

/-- Reading `a + b` values is reading `a` values, then `b` more. -/
theorem readMany_add (decode : Decoder α) : ∀ (a b : Nat) (bytes : List UInt8),
    readMany decode (a + b) bytes = (readMany decode a bytes).bind fun (xs, bytes) =>
      (readMany decode b bytes).map fun (ys, bytes) => (xs ++ ys, bytes)
  | 0, b, bytes => by
    simp only [Nat.zero_add, readMany, Option.bind_some, List.nil_append]
    cases readMany decode b bytes <;> rfl
  | a + 1, b, bytes => by
    rw [Nat.add_right_comm, readMany, readMany]
    cases decode bytes with
    | none => rfl
    | some first =>
      simp only [Option.bind_eq_bind, Option.bind_some, readMany_add decode a b]
      cases readMany decode a first.2 with
      | none => rfl
      | some xs =>
        simp only [Option.bind_some, Option.pure_def]
        cases readMany decode b xs.2 <;> simp

/-- A list framed by known bytes: when it has the frame's bytes at the front and at the
back, it is the frame around its middle. -/
theorem frame_eq {l pre post : List α} {n : Nat}
    (len : l.length = pre.length + n + post.length)
    (head : ∀ i < pre.length, l[i]? = pre[i]?)
    (tail : ∀ i < post.length, l[pre.length + n + i]? = post[i]?) :
    l = pre ++ (l.drop pre.length).take n ++ post := by
  apply List.ext_getElem?
  intro i
  rcases (show i < pre.length ∨ (pre.length ≤ i ∧ i < pre.length + n) ∨ pre.length + n ≤ i by omega)
    with inPre | inMiddle | inPost
  · rw [List.append_assoc, List.getElem?_append_left inPre, head i inPre]
  · rw [List.getElem?_append_left (by simp; omega), List.getElem?_append_right inMiddle.1,
      List.getElem?_take, if_pos (by omega), List.getElem?_drop]
    congr 1
    omega
  · obtain ⟨j, rfl⟩ : ∃ j, i = pre.length + n + j := ⟨i - (pre.length + n), by omega⟩
    have middleLength : (pre ++ (l.drop pre.length).take n).length = pre.length + n := by
      simp
      omega
    rw [List.getElem?_append_right (by omega), middleLength, Nat.add_sub_cancel_left]
    by_cases inside : j < post.length
    · exact tail j inside
    · rw [List.getElem?_eq_none (by omega), List.getElem?_eq_none (by omega)]

/-! ### Base-128 digits -/

/-- A digit with the continuation bit: its low seven bits are the digit, and the bit is
set. -/
theorem continued_digit {digit : Nat} (small : digit < 128) :
    ((digit.toUInt8 ||| 0x80) &&& 0x7F).toNat = digit ∧ (digit.toUInt8 ||| 0x80) &&& 0x80 ≠ 0 :=
  (by decide : ∀ d : Fin 128, ((d.val.toUInt8 ||| 0x80) &&& 0x7F).toNat = d.val ∧
    (d.val.toUInt8 ||| 0x80) &&& 0x80 ≠ 0) ⟨digit, small⟩

/-- The last digit, without the continuation bit. -/
theorem final_digit {digit : Nat} (small : digit < 128) :
    (digit.toUInt8 &&& 0x7F).toNat = digit ∧ digit.toUInt8 &&& 0x80 = 0 :=
  (by decide : ∀ d : Fin 128, (d.val.toUInt8 &&& 0x7F).toNat = d.val ∧
    d.val.toUInt8 &&& 0x80 = 0) ⟨digit, small⟩

/-- A property of every byte, checked on the 256 of them. -/
theorem forall_byte {P : UInt8 → Prop} (all : ∀ d : Fin 256, P d.val.toUInt8) (b : UInt8) : P b := by
  have same : b.toNat.toUInt8 = b := UInt8.ofNat_toNat
  rw [← same]
  exact all ⟨b.toNat, b.toNat_lt⟩

/-- A byte is its seven low bits with its continuation bit. -/
theorem digit_with_mark (b : UInt8) : (b &&& 0x7F).toNat.toUInt8 ||| (b &&& 0x80) = b :=
  forall_byte (P := fun b => (b &&& 0x7F).toNat.toUInt8 ||| (b &&& 0x80) = b) (by decide +kernel) b

theorem low_digit_lt (b : UInt8) : (b &&& 0x7F).toNat < 128 :=
  forall_byte (P := fun b => (b &&& 0x7F).toNat < 128) (by decide +kernel) b

/-- A mask below `2 ^ k` sees only the low `k` bits. -/
theorem and_mod_two_pow (x : Nat) {m : Nat} (k : Nat) (small : m < 2 ^ k) :
    x &&& m = x % 2 ^ k &&& m := by
  rw [← Nat.and_two_pow_sub_one_eq_mod x k, Nat.and_assoc, Nat.and_comm (2 ^ k - 1) m,
    Nat.and_two_pow_sub_one_of_lt_two_pow small]

/-- A mask of `k` ones keeps the remainder below `2 ^ k`. -/
theorem and_mask (x m k : Nat) (mask : m = 2 ^ k - 1) : x &&& m = x % 2 ^ k := by
  rw [mask, Nat.and_two_pow_sub_one_eq_mod]

/-- A number shifted past another's bits, or-ed with it, is their sum. -/
theorem shiftLeft_or_of_lt (a : Nat) {b k : Nat} (small : b < 2 ^ k) : a <<< k ||| b = a * 2 ^ k + b := by
  rw [← Nat.shiftLeft_add_eq_or_of_lt small, Nat.shiftLeft_eq]

/-- The continuation bit, when set, is `0x80`. -/
theorem mark_of_ne_zero {b : UInt8} (set : b &&& 0x80 ≠ 0) : b &&& 0x80 = 0x80 :=
  forall_byte (P := fun b => b &&& 0x80 ≠ 0 → b &&& 0x80 = 0x80) (by decide +kernel) b set

end ByteCodec
