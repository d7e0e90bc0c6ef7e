/-
Module: MFCoin.Encoding.Base64
Purpose: `EncodeBase64` and `DecodeBase64` (src/src/utilstrencodings.cpp) as the state
  machines they are: the encoder's three modes over the bytes, the decoder's four over the
  characters, and the padding each writes or checks at the end. The encoder writes each
  group of three bytes as the four base-64 digits of the 24-bit number they denote, and the
  decoder reads four digits back as the three bytes of their number; a short last group has
  its missing bits zero. Bytes come back from their string with `fInvalid` false. A string
  of base64 digits and `=`s that the decoder accepts comes back from its bytes with the
  padding its length needs, which need not be the padding it had: after a whole number of
  groups the decoder checks nothing that follows, and after a short group only the first
  `=`s.
Trusted boundary: none
Main exports: pbase64, decode64Table, encodeBase64, decodeBase64, base64Chars,
  encodeBase64_eq, decodeBase64_base64Chars, base64_roundTrip
-/
import MFCoin.Encoding.Base58
import MFCoin.Lib.ByteCodec

namespace MFCoin.Encoding

open ByteCodec

/-! ### The source's data -/

/-- `pbase64`: the 64 digits, `A` for zero. -/
def pbase64 : List UInt8 :=
  "ABCDEFGHIJKLMNOPQRSTUVWXYZabcdefghijklmnopqrstuvwxyz0123456789+/".toList.map char

/-- `decode64_table`: the digit of each byte, `-1` off the alphabet. -/
def decode64Table : List Int := [
  -1, -1, -1, -1, -1, -1, -1, -1, -1, -1, -1, -1, -1, -1, -1, -1, -1, -1, -1, -1,
  -1, -1, -1, -1, -1, -1, -1, -1, -1, -1, -1, -1, -1, -1, -1, -1, -1, -1, -1, -1,
  -1, -1, -1, 62, -1, -1, -1, 63, 52, 53, 54, 55, 56, 57, 58, 59, 60, 61, -1, -1,
  -1, -1, -1, -1, -1, 0, 1, 2, 3, 4, 5, 6, 7, 8, 9, 10, 11, 12, 13, 14,
  15, 16, 17, 18, 19, 20, 21, 22, 23, 24, 25, -1, -1, -1, -1, -1, -1, 26, 27, 28,
  29, 30, 31, 32, 33, 34, 35, 36, 37, 38, 39, 40, 41, 42, 43, 44, 45, 46, 47, 48,
  49, 50, 51, -1, -1, -1, -1, -1, -1, -1, -1, -1, -1, -1, -1, -1, -1, -1, -1, -1,
  -1, -1, -1, -1, -1, -1, -1, -1, -1, -1, -1, -1, -1, -1, -1, -1, -1, -1, -1, -1,
  -1, -1, -1, -1, -1, -1, -1, -1, -1, -1, -1, -1, -1, -1, -1, -1, -1, -1, -1, -1,
  -1, -1, -1, -1, -1, -1, -1, -1, -1, -1, -1, -1, -1, -1, -1, -1, -1, -1, -1, -1,
  -1, -1, -1, -1, -1, -1, -1, -1, -1, -1, -1, -1, -1, -1, -1, -1, -1, -1, -1, -1,
  -1, -1, -1, -1, -1, -1, -1, -1, -1, -1, -1, -1, -1, -1, -1, -1, -1, -1, -1, -1,
  -1, -1, -1, -1, -1, -1, -1, -1, -1, -1, -1, -1, -1, -1, -1, -1
]

/-- `decode64_table[(unsigned char)c]`. -/
def decode64 (c : UInt8) : Int := decode64Table.getD c.toNat (-1)

/-! ### The encoder -/

/-- The variables of `EncodeBase64`'s loop: the characters written, the `mode` (the bytes
of the current group read) and the bits `left` over from the last byte, already shifted to
the top of the next digit. -/
structure EncodeState where
  strRet : List UInt8
  mode : Nat
  left : Nat
deriving DecidableEq, Repr

/-- One byte `enc` of the loop; a `mode` the switch has no case for changes nothing. -/
def EncodeState.step (st : EncodeState) (enc : Nat) : EncodeState :=
  match st.mode with
  | 0 => -- we have no bits
    ⟨st.strRet ++ [pbase64.getD (enc >>> 2) 0], 1, (enc &&& 3) <<< 4⟩
  | 1 => -- we have two bits
    ⟨st.strRet ++ [pbase64.getD (st.left ||| enc >>> 4) 0], 2, (enc &&& 15) <<< 2⟩
  | 2 => -- we have four bits
    ⟨st.strRet ++ [pbase64.getD (st.left ||| enc >>> 6) 0, pbase64.getD (enc &&& 63) 0], 0, st.left⟩
  | _ => st

/-- After the loop: the bits left as one more digit, and `=` up to a whole group. -/
def EncodeState.finish (st : EncodeState) : List UInt8 :=
  if st.mode ≠ 0 then
    st.strRet ++ [pbase64.getD st.left 0, char '='] ++ (if st.mode = 1 then [char '='] else [])
  else st.strRet

/-- `EncodeBase64(pch, len)`. -/
def encodeBase64 (input : List UInt8) : List UInt8 :=
  (input.foldl (fun (st : EncodeState) enc => st.step enc.toNat) ⟨[], 0, 0⟩).finish

/-! ### The decoder -/

/-- The variables of `DecodeBase64`'s loop: the bytes written, the `mode` (the digits of
the current group read) and the bits `left` of the last digit not yet written. -/
structure DecodeState where
  vchRet : List UInt8
  mode : Nat
  left : Nat
deriving DecidableEq, Repr

/-- One digit `dec` of the loop; `push_back` of an `int` keeps its low byte. -/
def DecodeState.step (st : DecodeState) (dec : Nat) : DecodeState :=
  match st.mode with
  | 0 => -- we have no bits and get 6
    ⟨st.vchRet, 1, dec⟩
  | 1 => -- we have 6 bits and keep 4
    ⟨st.vchRet ++ [(st.left <<< 2 ||| dec >>> 4).toUInt8], 2, dec &&& 15⟩
  | 2 => -- we have 4 bits and get 6, we keep 2
    ⟨st.vchRet ++ [(st.left <<< 4 ||| dec >>> 2).toUInt8], 3, dec &&& 3⟩
  | 3 => -- we have 2 bits and get 6
    ⟨st.vchRet ++ [(st.left <<< 6 ||| dec).toUInt8], 0, st.left⟩
  | _ => st

/-- The loop reads characters up to the first one off the alphabet, the string's end (its
terminating zero) included, and returns the state and the characters from there on. -/
def DecodeState.run (st : DecodeState) : List UInt8 → DecodeState × List UInt8
  | [] => (st, [])
  | c :: p => if decode64 c = -1 then (st, c :: p) else (st.step (decode64 c).toNat).run p

/-- `*pfInvalid` after the loop, from the characters `p` from the stop on; a position past
the string reads its terminating zero. -/
def DecodeState.invalid (st : DecodeState) (p : List UInt8) : Bool :=
  match st.mode with
  | 0 => false -- 4n base64 characters processed: ok
  | 1 => true -- 4n+1 base64 character processed: impossible
  | 2 => -- 4n+2 base64 characters processed: require '=='
    st.left != 0 || p.getD 0 0 != char '=' || p.getD 1 0 != char '=' || decode64 (p.getD 2 0) != -1
  | 3 => -- 4n+3 base64 characters processed: require '='
    st.left != 0 || p.getD 0 0 != char '=' || decode64 (p.getD 1 0) != -1
  | _ => false

/-- `DecodeBase64(p, pfInvalid)`: the bytes and `*pfInvalid`. -/
def decodeBase64 (p : List UInt8) : List UInt8 × Bool :=
  let (st, rest) := DecodeState.run ⟨[], 0, 0⟩ p
  (st.vchRet, st.invalid rest)

/-! ### The alphabet -/

theorem length_pbase64 : pbase64.length = 64 := by decide

/-- The table reads each digit's character back as the digit. -/
theorem decode64_pbase64 {d : Nat} (below : d < 64) : decode64 (pbase64.getD d 0) = d := by
  revert d
  decide +kernel

theorem decode64_zero : decode64 0 = -1 := by decide

theorem decode64_pad : decode64 (char '=') = -1 := by decide

/-- A string over the alphabet is the characters of its digits. -/
theorem digits_of_alphabet : ∀ {chars : List UInt8}, (∀ c ∈ chars, c ∈ pbase64) →
    ∃ ds : List Nat, (∀ d ∈ ds, d < 64) ∧ ds.map (pbase64.getD · 0) = chars
  | [], _ => ⟨[], by simp, rfl⟩
  | c :: chars, alphabet => by
    obtain ⟨d, below, at_d⟩ := List.getElem_of_mem (alphabet c List.mem_cons_self)
    obtain ⟨ds, digits, rest⟩ := digits_of_alphabet fun e mem => alphabet e (List.mem_cons_of_mem c mem)
    refine ⟨d :: ds, ?_, ?_⟩
    · intro e mem
      rcases List.mem_cons.mp mem with rfl | mem
      · rwa [length_pbase64] at below
      · exact digits e mem
    · rw [List.map_cons, rest, List.getD_eq_getElem?_getD, List.getElem?_eq_getElem below, Option.getD_some, at_d]

/-! ### Groups of three bytes as four digits -/

/-- The 24-bit number three bytes denote, big-endian. -/
def groupValue (b0 b1 b2 : Nat) : Nat := b0 * 2 ^ 16 + b1 * 2 ^ 8 + b2

/-- The four base-64 digits of a 24-bit number, most significant first. -/
def sextets (v : Nat) : List Nat := [v / 2 ^ 18, v / 2 ^ 12 % 64, v / 2 ^ 6 % 64, v % 64]

/-- The 24-bit number four base-64 digits denote. -/
def quadValue (d0 d1 d2 d3 : Nat) : Nat := d0 * 2 ^ 18 + d1 * 2 ^ 12 + d2 * 2 ^ 6 + d3

/-- The three bytes of a 24-bit number, most significant first. -/
def octets (v : Nat) : List Nat := [v / 2 ^ 16, v / 2 ^ 8 % 256, v % 256]

/-- Base64 as the encoder means it: each group of three bytes as the four digits of its
number, and a last group of one or two bytes as the digits its bits reach, with zero bits
after them and an `=` for each digit missing. -/
def base64Chars : List UInt8 → List UInt8
  | b0 :: b1 :: b2 :: rest =>
    (sextets (groupValue b0.toNat b1.toNat b2.toNat)).map (pbase64.getD · 0) ++ base64Chars rest
  | [b0, b1] => ((sextets (groupValue b0.toNat b1.toNat 0)).take 3).map (pbase64.getD · 0) ++ [char '=']
  | [b0] => ((sextets (groupValue b0.toNat 0 0)).take 2).map (pbase64.getD · 0) ++ [char '=', char '=']
  | [] => []

theorem octets_groupValue (b0 : Nat) {b1 b2 : Nat} (h1 : b1 < 256) (h2 : b2 < 256) :
    octets (groupValue b0 b1 b2) = [b0, b1, b2] := by
  simp only [octets, groupValue, List.cons.injEq, and_true, Nat.reducePow]
  omega

theorem sextets_quadValue (d0 : Nat) {d1 d2 d3 : Nat} (h1 : d1 < 64) (h2 : d2 < 64) (h3 : d3 < 64) :
    sextets (quadValue d0 d1 d2 d3) = [d0, d1, d2, d3] := by
  simp only [sextets, quadValue, List.cons.injEq, and_true, Nat.reducePow]
  omega

/-- A number is the number of its digits, the first taking all the bits above the others. -/
theorem quadValue_sextets (v : Nat) :
    quadValue (v / 2 ^ 18) (v / 2 ^ 12 % 64) (v / 2 ^ 6 % 64) (v % 64) = v := by
  simp only [quadValue, Nat.reducePow]
  omega

/-- A number is the number of its bytes, the first taking all the bits above the others. -/
theorem groupValue_octets (v : Nat) : groupValue (v / 2 ^ 16) (v / 2 ^ 8 % 256) (v % 256) = v := by
  simp only [groupValue, Nat.reducePow]
  omega

theorem groupValue_lt {b0 b1 b2 : Nat} (h0 : b0 < 256) (h1 : b1 < 256) (h2 : b2 < 256) :
    groupValue b0 b1 b2 < 2 ^ 24 := by
  simp only [groupValue, Nat.reducePow]
  omega

theorem quadValue_lt {d0 d1 d2 d3 : Nat} (h0 : d0 < 64) (h1 : d1 < 64) (h2 : d2 < 64) (h3 : d3 < 64) :
    quadValue d0 d1 d2 d3 < 2 ^ 24 := by
  simp only [quadValue, Nat.reducePow]
  omega

/-! ### The shifts and masks -/

/-- The encoder's shifts and masks compute the four digits of a group's number. -/
theorem encode_sextets (b0 : Nat) {b1 b2 : Nat} (h1 : b1 < 256) (h2 : b2 < 256) :
    [b0 >>> 2, (b0 &&& 3) <<< 4 ||| b1 >>> 4, (b1 &&& 15) <<< 2 ||| b2 >>> 6, b2 &&& 63] =
      sextets (groupValue b0 b1 b2) := by
  simp only [Nat.shiftRight_eq_div_pow]
  rw [shiftLeft_or_of_lt _ (by omega : b1 / 2 ^ 4 < 2 ^ 4), shiftLeft_or_of_lt _ (by omega : b2 / 2 ^ 6 < 2 ^ 2),
    and_mask b0 3 2 rfl, and_mask b1 15 4 rfl, and_mask b2 63 6 rfl]
  simp only [sextets, groupValue, List.cons.injEq, and_true, Nat.reducePow]
  omega

/-- The decoder's shifts and masks compute the three bytes of a group's number. -/
theorem decode_octets (d0 : Nat) {d1 d2 d3 : Nat} (h1 : d1 < 64) (h2 : d2 < 64) (h3 : d3 < 64) :
    [d0 <<< 2 ||| d1 >>> 4, (d1 &&& 15) <<< 4 ||| d2 >>> 2, (d2 &&& 3) <<< 6 ||| d3] =
      octets (quadValue d0 d1 d2 d3) := by
  simp only [Nat.shiftRight_eq_div_pow]
  rw [shiftLeft_or_of_lt _ (by omega : d1 / 2 ^ 4 < 2 ^ 2), shiftLeft_or_of_lt _ (by omega : d2 / 2 ^ 2 < 2 ^ 4),
    shiftLeft_or_of_lt _ h3, and_mask d1 15 4 rfl, and_mask d2 3 2 rfl]
  simp only [octets, quadValue, List.cons.injEq, and_true, Nat.reducePow]
  omega

/-- The decoder's shifts and masks, on the digits of a number, compute its bytes. -/
theorem decode_sextets (v : Nat) :
    [(v / 2 ^ 18) <<< 2 ||| (v / 2 ^ 12 % 64) >>> 4,
      ((v / 2 ^ 12 % 64) &&& 15) <<< 4 ||| (v / 2 ^ 6 % 64) >>> 2,
      ((v / 2 ^ 6 % 64) &&& 3) <<< 6 ||| v % 64] = octets v := by
  rw [decode_octets _ (Nat.mod_lt _ (by decide)) (Nat.mod_lt _ (by decide)) (Nat.mod_lt _ (by decide)),
    quadValue_sextets]

theorem sextets_lt {v : Nat} (small : v < 2 ^ 24) : ∀ d ∈ sextets v, d < 64 := by
  simp only [sextets, List.mem_cons, List.not_mem_nil, or_false]
  omega

/-! ### The encoder writes the digits of each group -/

/-- Three bytes from mode `0` write the four digits of their number and come back to mode `0`. -/
theorem EncodeState.step_group (st : EncodeState) (zero : st.mode = 0) (b0 b1 b2 : UInt8) :
    ((st.step b0.toNat).step b1.toNat).step b2.toNat =
      ⟨st.strRet ++ (sextets (groupValue b0.toNat b1.toNat b2.toNat)).map (pbase64.getD · 0), 0,
        (b1.toNat &&& 15) <<< 2⟩ := by
  obtain ⟨strRet, mode, left⟩ := st
  dsimp only at zero
  subst zero
  rw [← encode_sextets b0.toNat b1.toNat_lt b2.toNat_lt]
  simp [EncodeState.step]

/-- From mode `0`, the loop and its end write the base64 of the bytes after what was written. -/
theorem EncodeState.finish_foldl : ∀ (input : List UInt8) (st : EncodeState), st.mode = 0 →
    (input.foldl (fun (st : EncodeState) enc => st.step enc.toNat) st).finish = st.strRet ++ base64Chars input
  | b0 :: b1 :: b2 :: rest, st, zero => by
    rw [List.foldl_cons, List.foldl_cons, List.foldl_cons, step_group st zero, finish_foldl rest _ rfl]
    simp [base64Chars]
  | [b0, b1], ⟨strRet, 0, left⟩, _ => by
    -- two bytes leave mode 2: one digit of four bits and one `=`
    rw [base64Chars, ← encode_sextets b0.toNat b1.toNat_lt (by decide : 0 < 256)]
    simp [EncodeState.step, EncodeState.finish]
  | [b0], ⟨strRet, 0, left⟩, _ => by
    -- one byte leaves mode 1: one digit of two bits and two `=`s
    rw [base64Chars, ← encode_sextets b0.toNat (by decide : 0 < 256) (by decide : 0 < 256)]
    simp [EncodeState.step, EncodeState.finish]
  | [], ⟨strRet, 0, left⟩, _ => by simp [EncodeState.finish, base64Chars]

/-- `EncodeBase64` writes the base64 of its bytes. -/
theorem encodeBase64_eq (input : List UInt8) : encodeBase64 input = base64Chars input := by
  rw [encodeBase64, EncodeState.finish_foldl input _ rfl, List.nil_append]

/-! ### The decoder reads the bytes of each group -/

/-- Characters of the alphabet are read as their digits. -/
theorem DecodeState.run_digits : ∀ (ds : List Nat), (∀ d ∈ ds, d < 64) → ∀ (st : DecodeState) (rest : List UInt8),
    st.run (ds.map (pbase64.getD · 0) ++ rest) = (ds.foldl DecodeState.step st).run rest
  | [], _, _, _ => rfl
  | d :: ds, digits, st, rest => by
    have digit : decode64 (pbase64.getD d 0) = d := decode64_pbase64 (digits d List.mem_cons_self)
    rw [List.map_cons, List.cons_append, DecodeState.run, digit, if_neg (by omega), Int.toNat_natCast,
      List.foldl_cons, run_digits ds (fun e mem => digits e (List.mem_cons_of_mem d mem))]

/-- Padding, or the string's end, stops the loop. -/
theorem DecodeState.run_pad (st : DecodeState) {pad : List UInt8} (padding : ∀ c ∈ pad, c = char '=') :
    st.run pad = (st, pad) := by
  cases pad with
  | nil => rfl
  | cons c pad =>
    rw [DecodeState.run, padding c List.mem_cons_self, decode64_pad, if_pos rfl]

/-- Four digits from mode `0` write the three bytes of their number and come back to mode `0`. -/
theorem DecodeState.step_quad (st : DecodeState) (zero : st.mode = 0) (d0 : Nat) {d1 d2 d3 : Nat}
    (h1 : d1 < 64) (h2 : d2 < 64) (h3 : d3 < 64) :
    [d0, d1, d2, d3].foldl DecodeState.step st =
      ⟨st.vchRet ++ (octets (quadValue d0 d1 d2 d3)).map Nat.toUInt8, 0, d2 &&& 3⟩ := by
  obtain ⟨vchRet, mode, left⟩ := st
  dsimp only at zero
  subst zero
  rw [← decode_octets d0 h1 h2 h3]
  simp [DecodeState.step]

/-- Three digits from mode `0` write two bytes and keep two bits. -/
theorem DecodeState.step_three (st : DecodeState) (zero : st.mode = 0) (d0 d1 d2 : Nat) :
    [d0, d1, d2].foldl DecodeState.step st =
      ⟨st.vchRet ++ [(d0 <<< 2 ||| d1 >>> 4).toUInt8, ((d1 &&& 15) <<< 4 ||| d2 >>> 2).toUInt8], 3, d2 &&& 3⟩ := by
  obtain ⟨vchRet, mode, left⟩ := st
  dsimp only at zero
  subst zero
  simp [DecodeState.step]

/-- Two digits from mode `0` write one byte and keep four bits. -/
theorem DecodeState.step_two (st : DecodeState) (zero : st.mode = 0) (d0 d1 : Nat) :
    [d0, d1].foldl DecodeState.step st = ⟨st.vchRet ++ [(d0 <<< 2 ||| d1 >>> 4).toUInt8], 2, d1 &&& 15⟩ := by
  obtain ⟨vchRet, mode, left⟩ := st
  dsimp only at zero
  subst zero
  simp [DecodeState.step]

/-- The digits of a number from mode `0` write its three bytes and come back to mode `0`. -/
theorem DecodeState.foldl_sextets (st : DecodeState) (zero : st.mode = 0) (v : Nat) :
    (sextets v).foldl DecodeState.step st = ⟨st.vchRet ++ (octets v).map Nat.toUInt8, 0, v / 2 ^ 6 % 64 &&& 3⟩ := by
  rw [sextets, DecodeState.step_quad st zero _ (Nat.mod_lt _ (by decide)) (Nat.mod_lt _ (by decide))
    (Nat.mod_lt _ (by decide)), quadValue_sextets]

/-- The first three digits of a number from mode `0` write its first two bytes and keep the
two bits of the third digit that belong to its third byte. -/
theorem DecodeState.foldl_take_three (st : DecodeState) (zero : st.mode = 0) (v : Nat) :
    ((sextets v).take 3).foldl DecodeState.step st =
      ⟨st.vchRet ++ ((octets v).take 2).map Nat.toUInt8, 3, v / 2 ^ 6 % 64 &&& 3⟩ := by
  rw [show (sextets v).take 3 = [v / 2 ^ 18, v / 2 ^ 12 % 64, v / 2 ^ 6 % 64] from rfl,
    DecodeState.step_three st zero, ← decode_sextets v]
  rfl

/-- The first two digits of a number from mode `0` write its first byte and keep the four
bits of the second digit that belong to its second byte. -/
theorem DecodeState.foldl_take_two (st : DecodeState) (zero : st.mode = 0) (v : Nat) :
    ((sextets v).take 2).foldl DecodeState.step st =
      ⟨st.vchRet ++ ((octets v).take 1).map Nat.toUInt8, 2, v / 2 ^ 12 % 64 &&& 15⟩ := by
  rw [show (sextets v).take 2 = [v / 2 ^ 18, v / 2 ^ 12 % 64] from rfl,
    DecodeState.step_two st zero, ← decode_sextets v]
  rfl

theorem octets_groupValue_bytes (b0 b1 b2 : UInt8) :
    (octets (groupValue b0.toNat b1.toNat b2.toNat)).map Nat.toUInt8 = [b0, b1, b2] := by
  rw [octets_groupValue _ b1.toNat_lt b2.toNat_lt]
  simp [UInt8.ofNat_toNat]

/-- From mode `0` the decoder reads base64 back to its bytes, and finds its padding right. -/
theorem DecodeState.run_base64Chars : ∀ (bytes : List UInt8) (st : DecodeState), st.mode = 0 →
    ∃ st' rest, st.run (base64Chars bytes) = (st', rest) ∧ st'.vchRet = st.vchRet ++ bytes ∧
      st'.invalid rest = false
  | b0 :: b1 :: b2 :: bytes, st, zero => by
    have small := groupValue_lt b0.toNat_lt b1.toNat_lt b2.toNat_lt
    obtain ⟨st', rest, run, vchRet, valid⟩ := run_base64Chars bytes
      ⟨st.vchRet ++ [b0, b1, b2], 0, groupValue b0.toNat b1.toNat b2.toNat / 2 ^ 6 % 64 &&& 3⟩ rfl
    refine ⟨st', rest, ?_, by rw [vchRet]; simp, valid⟩
    rw [base64Chars, run_digits _ (sextets_lt small), foldl_sextets st zero, octets_groupValue_bytes, run]
  | [b0, b1], st, zero => by
    -- three digits and one `=`: two bytes, and the two bits past them are zero
    have small := groupValue_lt b0.toNat_lt b1.toNat_lt (by decide : 0 < 256)
    have noBits : groupValue b0.toNat b1.toNat 0 / 2 ^ 6 % 64 &&& 3 = 0 := by
      rw [and_mask _ 3 2 rfl]
      simp only [groupValue, Nat.reducePow]
      omega
    have run : st.run (base64Chars [b0, b1]) = (⟨st.vchRet ++ [b0, b1], 3, 0⟩, [char '=']) := by
      rw [base64Chars, run_digits _ (fun d mem => sextets_lt small d (List.mem_of_mem_take mem)),
        foldl_take_three st zero, noBits, octets_groupValue _ b1.toNat_lt (by decide), run_pad _ (by simp)]
      simp [UInt8.ofNat_toNat]
    exact ⟨_, _, run, rfl, rfl⟩
  | [b0], st, zero => by
    -- two digits and two `=`s: one byte, and the four bits past it are zero
    have small := groupValue_lt b0.toNat_lt (by decide : 0 < 256) (by decide : 0 < 256)
    have noBits : groupValue b0.toNat 0 0 / 2 ^ 12 % 64 &&& 15 = 0 := by
      rw [and_mask _ 15 4 rfl]
      simp only [groupValue, Nat.reducePow]
      omega
    have run : st.run (base64Chars [b0]) = (⟨st.vchRet ++ [b0], 2, 0⟩, [char '=', char '=']) := by
      rw [base64Chars, run_digits _ (fun d mem => sextets_lt small d (List.mem_of_mem_take mem)),
        foldl_take_two st zero, noBits, octets_groupValue _ (by decide) (by decide), run_pad _ (by simp)]
      simp [UInt8.ofNat_toNat]
    exact ⟨_, _, run, rfl, rfl⟩
  | [], ⟨vchRet, 0, left⟩, _ => ⟨_, _, rfl, by simp, rfl⟩

/-- `DecodeBase64` reads the base64 of any bytes back to them, with `fInvalid` false. -/
theorem decodeBase64_encodeBase64 (bytes : List UInt8) : decodeBase64 (encodeBase64 bytes) = (bytes, false) := by
  obtain ⟨st, rest, run, vchRet, valid⟩ := DecodeState.run_base64Chars bytes ⟨[], 0, 0⟩ rfl
  rw [decodeBase64, encodeBase64_eq, run]
  dsimp only
  rw [vchRet, valid]
  rfl

/-! ### Accepted strings -/

/-- The base64 of the bytes of a number, followed by more. -/
theorem base64Chars_octets {q : Nat} (small : q < 2 ^ 24) (rest : List UInt8) :
    base64Chars ((octets q).map Nat.toUInt8 ++ rest) = (sextets q).map (pbase64.getD · 0) ++ base64Chars rest := by
  have bytes : ∀ x ∈ octets q, x.toUInt8.toNat = x := by
    simp only [octets, List.mem_cons, List.not_mem_nil, or_false]
    rintro x (rfl | rfl | rfl) <;> exact UInt8.toNat_ofNat_of_lt' (show _ < 256 by omega)
  rw [octets, List.map_cons, List.map_cons, List.map_cons, List.map_nil, List.cons_append, List.cons_append,
    List.cons_append, List.nil_append, base64Chars]
  simp only [octets, List.mem_cons] at bytes
  rw [bytes _ (by simp), bytes _ (by simp), bytes _ (by simp), groupValue_octets]

/-- The base64 of the first two bytes of a number whose third byte is zero. -/
theorem base64Chars_take_two {q : Nat} (small : q < 2 ^ 24) (zero : q % 256 = 0) :
    base64Chars (((octets q).take 2).map Nat.toUInt8) = ((sextets q).take 3).map (pbase64.getD · 0) ++ [char '='] := by
  have first : (q / 2 ^ 16).toUInt8.toNat = q / 2 ^ 16 := UInt8.toNat_ofNat_of_lt' (show _ < 256 by omega)
  have second : (q / 2 ^ 8 % 256).toUInt8.toNat = q / 2 ^ 8 % 256 := UInt8.toNat_ofNat_of_lt' (show _ < 256 by omega)
  have value : groupValue (q / 2 ^ 16) (q / 2 ^ 8 % 256) 0 = q := by
    rw [← zero, groupValue_octets]
  rw [octets, show [q / 2 ^ 16, q / 2 ^ 8 % 256, q % 256].take 2 = [q / 2 ^ 16, q / 2 ^ 8 % 256] from rfl,
    List.map_cons, List.map_cons, List.map_nil, base64Chars, first, second, value]

/-- The base64 of the first byte of a number whose other two bytes are zero. -/
theorem base64Chars_take_one {q : Nat} (small : q < 2 ^ 24) (zero : q % 2 ^ 16 = 0) :
    base64Chars (((octets q).take 1).map Nat.toUInt8) =
      ((sextets q).take 2).map (pbase64.getD · 0) ++ [char '=', char '='] := by
  have first : (q / 2 ^ 16).toUInt8.toNat = q / 2 ^ 16 := UInt8.toNat_ofNat_of_lt' (show _ < 256 by omega)
  have value : groupValue (q / 2 ^ 16) 0 0 = q := by
    simp only [groupValue, Nat.reducePow] at zero ⊢
    omega
  rw [octets, show [q / 2 ^ 16, q / 2 ^ 8 % 256, q % 256].take 1 = [q / 2 ^ 16] from rfl,
    List.map_cons, List.map_nil, base64Chars, first, value]

/-- Digits from mode `0` that the end check accepts write bytes whose base64 is those
digits with the padding of their count, whatever padding followed them. -/
theorem DecodeState.foldl_accepted : ∀ (ds : List Nat) (st : DecodeState), st.mode = 0 → (∀ d ∈ ds, d < 64) →
    ∀ pad, (ds.foldl DecodeState.step st).invalid pad = false →
    ∃ bytes, (ds.foldl DecodeState.step st).vchRet = st.vchRet ++ bytes ∧
      base64Chars bytes = ds.map (pbase64.getD · 0) ++ List.replicate ((4 - ds.length % 4) % 4) (char '=')
  | d0 :: d1 :: d2 :: d3 :: ds, st, zero, digits, pad, valid => by
    have below : ∀ d ∈ [d0, d1, d2, d3], d < 64 := fun d mem => digits d (by simp at mem ⊢; omega)
    have small := quadValue_lt (below d0 (by simp)) (below d1 (by simp)) (below d2 (by simp)) (below d3 (by simp))
    rw [show (d0 :: d1 :: d2 :: d3 :: ds).foldl DecodeState.step st = ds.foldl DecodeState.step
      ([d0, d1, d2, d3].foldl DecodeState.step st) from rfl, step_quad st zero d0 (below d1 (by simp))
      (below d2 (by simp)) (below d3 (by simp))] at valid ⊢
    obtain ⟨bytes, vchRet, chars⟩ := foldl_accepted ds _ rfl
      (fun d mem => digits d (by simp [mem])) pad valid
    refine ⟨(octets (quadValue d0 d1 d2 d3)).map Nat.toUInt8 ++ bytes, by rw [vchRet, List.append_assoc], ?_⟩
    rw [base64Chars_octets small, chars, sextets_quadValue d0 (below d1 (by simp)) (below d2 (by simp))
      (below d3 (by simp)), List.length_cons, List.length_cons, List.length_cons, List.length_cons,
      (by omega : ds.length + 1 + 1 + 1 + 1 = ds.length + 4), Nat.add_mod_right]
    simp
  | [d0, d1, d2], st, zero, digits, pad, valid => by
    -- the end check wants the two bits past the second byte zero: the third byte is zero
    have small := quadValue_lt (digits d0 (by simp)) (digits d1 (by simp)) (digits d2 (by simp)) (by decide : 0 < 64)
    have split : [d0, d1, d2] = (sextets (quadValue d0 d1 d2 0)).take 3 := by
      rw [sextets_quadValue d0 (digits d1 (by simp)) (digits d2 (by simp)) (by decide)]
      rfl
    have fold := foldl_take_three st zero (quadValue d0 d1 d2 0)
    rw [← split] at fold
    rw [fold] at valid ⊢
    simp [DecodeState.invalid] at valid
    obtain ⟨⟨noBits, -⟩, -⟩ := valid
    have zeroByte : quadValue d0 d1 d2 0 % 256 = 0 := by
      rw [and_mask _ 3 2 rfl] at noBits
      simp only [quadValue, Nat.reducePow] at noBits ⊢
      omega
    refine ⟨_, rfl, ?_⟩
    rw [base64Chars_take_two small zeroByte, ← split]
    rfl
  | [d0, d1], st, zero, digits, pad, valid => by
    -- the end check wants the four bits past the first byte zero: the other bytes are zero
    have small := quadValue_lt (digits d0 (by simp)) (digits d1 (by simp)) (by decide : 0 < 64) (by decide : 0 < 64)
    have split : [d0, d1] = (sextets (quadValue d0 d1 0 0)).take 2 := by
      rw [sextets_quadValue d0 (digits d1 (by simp)) (by decide) (by decide)]
      rfl
    have fold := foldl_take_two st zero (quadValue d0 d1 0 0)
    rw [← split] at fold
    rw [fold] at valid ⊢
    simp [DecodeState.invalid] at valid
    obtain ⟨⟨⟨noBits, -⟩, -⟩, -⟩ := valid
    have zeroBytes : quadValue d0 d1 0 0 % 2 ^ 16 = 0 := by
      rw [and_mask _ 15 4 rfl] at noBits
      simp only [quadValue, Nat.reducePow] at noBits ⊢
      omega
    refine ⟨_, rfl, ?_⟩
    rw [base64Chars_take_one small zeroBytes, ← split]
    rfl
  | [d0], ⟨vchRet, 0, left⟩, _, _, pad, valid => by
    -- one digit past a whole group is always invalid
    simp [DecodeState.step, DecodeState.invalid] at valid
  | [], st, _, _, _, _ => ⟨[], by simp, rfl⟩

/-- `DecodeBase64` of digits and `=`s, when it reports them valid, returns bytes whose
base64 is the digits with the padding of their count. -/
theorem encodeBase64_decodeBase64 (chars pad : List UInt8) (alphabet : ∀ c ∈ chars, c ∈ pbase64)
    (padding : ∀ c ∈ pad, c = char '=') (valid : (decodeBase64 (chars ++ pad)).2 = false) :
    encodeBase64 (decodeBase64 (chars ++ pad)).1 =
      chars ++ List.replicate ((4 - chars.length % 4) % 4) (char '=') := by
  obtain ⟨ds, digits, rfl⟩ := digits_of_alphabet alphabet
  have run : DecodeState.run ⟨[], 0, 0⟩ (ds.map (pbase64.getD · 0) ++ pad) =
      (ds.foldl DecodeState.step ⟨[], 0, 0⟩, pad) := by
    rw [DecodeState.run_digits ds digits, DecodeState.run_pad _ padding]
  rw [decodeBase64, run] at valid ⊢
  dsimp only at valid ⊢
  obtain ⟨bytes, vchRet, chars⟩ := DecodeState.foldl_accepted ds ⟨[], 0, 0⟩ rfl digits pad valid
  rw [vchRet, encodeBase64_eq, List.nil_append, chars, List.length_map]

/-- Bytes come back from their base-64 string with `fInvalid` false, and a string of base-64
digits and `=`s that the decoder accepts comes back from its bytes with the padding the encoder
writes. -/
theorem base64_roundTrip :
    (∀ bytes : List UInt8, decodeBase64 (encodeBase64 bytes) = (bytes, false)) ∧
    (∀ chars pad : List UInt8, (∀ c ∈ chars, c ∈ pbase64) → (∀ c ∈ pad, c = char '=') →
      (decodeBase64 (chars ++ pad)).2 = false →
      encodeBase64 (decodeBase64 (chars ++ pad)).1 =
        chars ++ List.replicate ((4 - chars.length % 4) % 4) (char '=')) :=
  ⟨decodeBase64_encodeBase64, encodeBase64_decodeBase64⟩

set_option maxRecDepth 2048 in
theorem base64_roundTrip_padded :
    encodeBase64 (decodeBase64 ("TWE".toList.map char ++ [char '='])).1 =
      "TWE".toList.map char ++ List.replicate ((4 - ("TWE".toList.map char).length % 4) % 4) (char '=') :=
  base64_roundTrip.2 _ _ (by decide) (by decide) (by decide)

/-- Padding the decoder accepts and the encoder does not write: an `=` after a whole group,
and a third `=` after two digits. -/
theorem decodeBase64_extraPadding :
    (decodeBase64 ("AAAA=".toList.map char)).2 = false ∧
      encodeBase64 (decodeBase64 ("AAAA=".toList.map char)).1 ≠ "AAAA=".toList.map char ∧
    (decodeBase64 ("AA===".toList.map char)).2 = false ∧
      encodeBase64 (decodeBase64 ("AA===".toList.map char)).1 ≠ "AA===".toList.map char := by
  decide

end MFCoin.Encoding
