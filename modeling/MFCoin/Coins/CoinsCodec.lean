/-
Module: MFCoin.Coins.CoinsCodec
Purpose: The record the coins database keeps for one transaction (src/src/coins.h,
  coins.cpp): `CCoins::Serialize` with `CalcMaskSize`, and `CCoins::Unserialize`. One
  header code packs the coinbase flag, whether the first two outputs are unspent and the
  number of nonzero bytes of a spentness bitmask for the other outputs; the decoder reads
  bitmask bytes until it has seen that many nonzero ones. Every record reads back with its
  unspent outputs as `CTxOutCompressor` reads them back and its spent outputs as
  `CTxOut()`, up to the spent outputs at its end. So a record whose spent outputs are
  `SetNull` and whose unspent outputs the compressor keeps reads back as written; an
  unspent output whose script is longer than `MAX_SCRIPT_SIZE` comes back as `OP_RETURN`.
Trusted boundary: none beyond `Secp256k1` (MFCoin.Coins.Compressor)
Main exports: maskByte, byteFlags, calcMaskSize, Coins.serialize, Coins.unserialize,
  Coins.Storable, Coins.unserialize_serialize_outputs, coinsRecord_roundTrip
-/
import MFCoin.Coins.Disconnect
import Mathlib.Data.List.DropRight

namespace MFCoin.CoinsView

open MFCoin.Script MFCoin.Serialize ByteCodec

/-! ### The spentness bitmask -/

/-- What a bit of the bitmask says of an output: `!IsNull()`. -/
def TxOut.unspent (out : TxOut) : Bool := !decide out.IsNull

/-- A bitmask byte of up to eight flags: `chAvail |= (1 << i)` for each flag `i` set. -/
def maskByte (group : List Bool) : UInt8 :=
  group.zipIdx.foldl
    (fun chAvail (f, i) => if f then chAvail ||| (1 : UInt8) <<< i.toUInt8 else chAvail) 0

/-- The eight flags `Unserialize` pushes for a bitmask byte: `(chAvail & (1 << p)) != 0`. -/
def byteFlags (chAvail : UInt8) : List Bool :=
  (List.range 8).map fun p => chAvail &&& (1 : UInt8) <<< p.toUInt8 != 0

/-- The outputs bitmask byte `b` stands for: from `2+b*8`, eight at most. -/
def maskGroup (vout : List TxOut) (b : Nat) : List TxOut := (vout.drop (2 + b * 8)).take 8

/-- The bytes `CalcMaskSize` looks at: the `b` with `2+b*8 < vout.size()`. -/
def maskGroupCount (vout : List TxOut) : Nat := (vout.length - 2 + 7) / 8

/-- `CCoins::CalcMaskSize`: the number of bitmask bytes up to the last nonzero one, and the
number of nonzero ones. -/
def calcMaskSize (vout : List TxOut) : Nat × Nat :=
  (List.range (maskGroupCount vout)).foldl (fun (nLastUsedByte, nNonzeroBytes) b =>
    let fZero := (maskGroup vout b).all fun out => decide out.IsNull
    if fZero then (nLastUsedByte, nNonzeroBytes) else (b + 1, nNonzeroBytes + 1)) (0, 0)

/-- The bitmask bytes of the first `count` groups. -/
def maskBytes (vout : List TxOut) (count : Nat) : List UInt8 :=
  (List.range count).map fun b => maskByte ((maskGroup vout b).map TxOut.unspent)

/-! ### The record -/

/-- The outputs loop of `CCoins::Serialize`: the unspent outputs, compressed. -/
def writeOutputs (curve : Secp256k1) (vout : List TxOut) : List UInt8 :=
  vout.flatMap fun out => if out.IsNull then [] else serializeTxOut curve out

/-- `CCoins::Serialize`; `none` where its assertion `fFirst || fSecond || nMaskCode` fails. -/
def Coins.serialize (curve : Secp256k1) (coins : Coins) : Option (List UInt8) :=
  let (nMaskSize, nMaskCode) := calcMaskSize coins.vout
  let fFirst := coins.IsAvailable 0
  let fSecond := coins.IsAvailable 1
  if !(fFirst || fSecond || nMaskCode != 0) then none
  else
    let nCode := (8 * (nMaskCode - (if fFirst || fSecond then 0 else 1)) +
      (if coins.fCoinBase then 1 else 0) + (if fFirst then 2 else 0) +
      (if fSecond then 4 else 0)) % 2 ^ 32
    some (writeVarIntSigned coins.nVersion ++ writeVarInt 32 nCode ++
      maskBytes coins.vout nMaskSize ++ writeOutputs curve coins.vout ++
      writeVarIntSigned coins.nHeight ++ writeVarInt 32 (if coins.fCoinStake then 1 else 0) ++
      writeVarInt 32 coins.nTime.toNat)

/-- The bitmask loop of `CCoins::Unserialize`: bytes are read until `nMaskCode` nonzero ones
were seen, and each pushes its eight flags. -/
def readMask : Nat → Decoder (List Bool)
  | 0, bytes => some ([], bytes)
  | _ + 1, [] => none
  | nMaskCode + 1, chAvail :: bytes =>
    (readMask (if chAvail != 0 then nMaskCode else nMaskCode + 1) bytes).map
      fun (vAvail, bytes) => (byteFlags chAvail ++ vAvail, bytes)

/-- The outputs loop of `CCoins::Unserialize`: an available position reads a compressed
output, the others keep `CTxOut()`. -/
def readOutputs (curve : Secp256k1) : List Bool → Decoder (List TxOut)
  | [], bytes => some ([], bytes)
  | avail :: vAvail, bytes => do
    let (out, bytes) ← if avail then unserializeTxOut curve bytes else some (TxOut.null, bytes)
    let (vout, bytes) ← readOutputs curve vAvail bytes
    some (out :: vout, bytes)

/-- `CCoins::Unserialize`, ending with `Cleanup`. -/
def Coins.unserialize (curve : Secp256k1) : Decoder Coins := fun bytes => do
  let (nVersion, bytes) ← readVarIntSigned bytes
  let (nCode, bytes) ← readVarInt 32 bytes
  let nMaskCode := nCode / 8 + (if nCode &&& 6 != 0 then 0 else 1)
  let (vMask, bytes) ← readMask nMaskCode bytes
  let vAvail := [nCode &&& 2 != 0, nCode &&& 4 != 0] ++ vMask
  let (vout, bytes) ← readOutputs curve vAvail bytes
  let (nHeight, bytes) ← readVarIntSigned bytes
  let (nFlag, bytes) ← readVarInt 32 bytes
  let (nTime, bytes) ← readVarInt 32 bytes
  some (Coins.cleanup ⟨nCode &&& 1 != 0, vout, nHeight, nVersion, nFlag &&& 1 != 0,
    nTime.toUInt32⟩, bytes)

/-! ### Bitmask bytes -/

/-- A flag that is not set adds nothing to its byte. -/
theorem maskByte_append_false (group : List Bool) : maskByte (group ++ [false]) = maskByte group := by
  simp only [maskByte, List.zipIdx_append, List.foldl_append]
  rfl

theorem maskByte_append_replicate (group : List Bool) :
    ∀ n, maskByte (group ++ List.replicate n false) = maskByte group
  | 0 => by rw [List.replicate_zero, List.append_nil]
  | n + 1 => by
    rw [List.replicate_succ', ← List.append_assoc, maskByte_append_false,
      maskByte_append_replicate group n]

/-- Eight flags come back from their byte: a check of the 256 bytes. -/
theorem byteFlags_maskByte_eight : ∀ a b c d e f g h : Bool,
    byteFlags (maskByte [a, b, c, d, e, f, g, h]) = [a, b, c, d, e, f, g, h] := by
  decide

/-- Up to eight flags come back from their byte, followed by clear ones. -/
theorem byteFlags_maskByte {group : List Bool} (short : group.length ≤ 8) :
    byteFlags (maskByte group) = group ++ List.replicate (8 - group.length) false := by
  rw [← maskByte_append_replicate group (8 - group.length)]
  generalize padded : group ++ List.replicate (8 - group.length) false = flags
  have eight : flags.length = 8 := by
    rw [← padded, List.length_append, List.length_replicate]
    omega
  match flags, eight with
  | [a, b, c, d, e, f, g, h], _ => exact byteFlags_maskByte_eight a b c d e f g h

/-- A byte is zero exactly when none of its flags is set. -/
theorem maskByte_eq_zero_iff {group : List Bool} (short : group.length ≤ 8) :
    maskByte group = 0 ↔ ∀ f ∈ group, f = false := by
  constructor
  · intro zero f mem
    have flags := byteFlags_maskByte short
    rw [zero, (by decide : byteFlags 0 = List.replicate 8 false)] at flags
    have : f ∈ List.replicate 8 false := flags ▸ List.mem_append_left _ mem
    exact List.eq_of_mem_replicate this
  · intro clear
    rw [List.eq_replicate_iff.mpr ⟨rfl, clear⟩, ← List.nil_append (List.replicate _ false),
      maskByte_append_replicate]
    rfl

/-! ### `CalcMaskSize` -/

theorem maskBytes_succ (vout : List TxOut) (count : Nat) :
    maskBytes vout (count + 1) =
      maskBytes vout count ++ [maskByte ((maskGroup vout count).map TxOut.unspent)] := by
  rw [maskBytes, List.range_succ, List.map_append, List.map_singleton]
  rfl

/-- `fZero`: a group is all spent exactly when its byte is zero. -/
theorem all_isNull_iff (vout : List TxOut) (b : Nat) :
    ((maskGroup vout b).all fun out => decide out.IsNull) = true ↔
      maskByte ((maskGroup vout b).map TxOut.unspent) = 0 := by
  have short : ((maskGroup vout b).map TxOut.unspent).length ≤ 8 := by
    simp [maskGroup]
  rw [maskByte_eq_zero_iff short]
  simp [TxOut.unspent]

/-- `CalcMaskSize` counts the bitmask bytes up to the last nonzero one, and the nonzero
ones. -/
theorem calcMaskSize_eq (vout : List TxOut) :
    calcMaskSize vout =
      (((maskBytes vout (maskGroupCount vout)).rdropWhile (· == 0)).length,
        (maskBytes vout (maskGroupCount vout)).countP (· != 0)) := by
  unfold calcMaskSize
  generalize maskGroupCount vout = count
  -- the loop over the groups, one byte at a time
  induction count with
  | zero => rfl
  | succ count ih =>
    rw [List.range_succ, List.foldl_append, ih, maskBytes_succ]
    simp only [List.foldl_cons, List.foldl_nil, List.countP_append]
    by_cases zero : maskByte ((maskGroup vout count).map TxOut.unspent) = 0
    · rw [if_pos ((all_isNull_iff vout count).mpr zero), List.rdropWhile_concat_pos _ _ _ (by simp [zero])]
      simp [zero]
    · rw [if_neg (mt (all_isNull_iff vout count).mp zero),
        List.rdropWhile_concat_neg _ _ _ (by simp [zero])]
      simp [zero, maskBytes]

/-! ### Reading the bitmask -/

/-- The decoder reads back a bitmask whose last byte is nonzero when it is told how many
nonzero bytes it holds, and stops at its end. -/
theorem readMask_countP : ∀ (mask : List UInt8), mask.getLast? ≠ some 0 → ∀ rest,
    readMask (mask.countP (· != 0)) (mask ++ rest) = some (mask.flatMap byteFlags, rest)
  | [], _, rest => by simp [readMask]
  | chAvail :: mask, lastNonzero, rest => by
    have tailNonzero : mask.getLast? ≠ some 0 := by
      intro last
      rw [List.getLast?_cons, last] at lastNonzero
      exact lastNonzero rfl
    have ih := readMask_countP mask tailNonzero rest
    by_cases zero : chAvail = 0
    · -- a zero byte: the count does not move, and the bytes after it hold a nonzero one
      subst zero
      obtain ⟨count, counted⟩ : ∃ count, mask.countP (· != 0) = count + 1 := by
        obtain ⟨last, found⟩ : ∃ last, mask.getLast? = some last := by
          cases found : mask.getLast? with
          | none =>
            rw [List.getLast?_cons, found] at lastNonzero
            exact absurd rfl lastNonzero
          | some last => exact ⟨last, rfl⟩
        have positive : 0 < mask.countP (· != 0) :=
          List.countP_pos_iff.mpr ⟨last, List.mem_of_getLast? found,
            bne_iff_ne.mpr fun same => tailNonzero (same ▸ found)⟩
        exact ⟨_, (Nat.succ_pred_eq_of_pos positive).symm⟩
      rw [counted] at ih
      simp only [List.countP_cons, bne_self_eq_false, Bool.false_eq_true, if_false, Nat.add_zero,
        counted, List.cons_append, readMask, ih, Option.map_some, List.flatMap_cons]
    · simp only [List.countP_cons, bne_iff_ne, ne_eq, zero, not_false_eq_true, if_true,
        List.cons_append, readMask, ih, Option.map_some, List.flatMap_cons]

/-- A window of eight flags in flags padded with clear ones: the flags there, then clear
ones. -/
theorem take_drop_append_replicate (flags : List Bool) {j N : Nat} (long : j + 8 ≤ N) :
    ((flags ++ List.replicate N false).drop j).take 8 =
      (flags.drop j).take 8 ++ List.replicate (8 - ((flags.drop j).take 8).length) false := by
  rw [List.drop_append, List.take_append, List.drop_replicate, List.take_replicate]
  congr 2
  simp only [List.length_take, List.length_drop]
  omega

/-- The flags of the first `count` bitmask bytes: those of the outputs from the third on,
padded with clear ones. -/
theorem flatMap_maskBytes (vout : List TxOut) :
    ∀ (count N : Nat), 8 * count ≤ N → (maskBytes vout count).flatMap byteFlags =
      ((vout.drop 2).map TxOut.unspent ++ List.replicate N false).take (8 * count)
  | 0, _, _ => rfl
  | count + 1, N, long => by
    have group : (maskGroup vout count).map TxOut.unspent =
        (((vout.drop 2).map TxOut.unspent).drop (8 * count)).take 8 := by
      rw [maskGroup, List.map_take, List.map_drop, List.map_drop, List.drop_drop, Nat.mul_comm]
    have short : ((maskGroup vout count).map TxOut.unspent).length ≤ 8 := by
      simp [maskGroup]
    rw [maskBytes_succ, List.flatMap_append, flatMap_maskBytes vout count N (by omega),
      Nat.mul_succ, List.take_add, List.flatMap_singleton, byteFlags_maskByte short,
      take_drop_append_replicate _ (by omega), group]

/-! ### The header code -/

/-- The header code gives back the coinbase flag, the first two outputs' flags and the
number of nonzero bitmask bytes, the one taken off when neither of the first two outputs
is unspent included. -/
theorem headerCode_fields (nMaskCode : Nat) (fCoinBase fFirst fSecond : Bool)
    (asserted : (fFirst || fSecond || nMaskCode != 0) = true) :
    let nCode := 8 * (nMaskCode - (if fFirst || fSecond then 0 else 1)) +
      (if fCoinBase then 1 else 0) + (if fFirst then 2 else 0) + (if fSecond then 4 else 0)
    (nCode &&& 1 != 0) = fCoinBase ∧ (nCode &&& 2 != 0) = fFirst ∧
      (nCode &&& 4 != 0) = fSecond ∧ nCode / 8 + (if nCode &&& 6 != 0 then 0 else 1) = nMaskCode := by
  intro nCode
  -- the three flags are the low three bits, below the count
  have low : nCode % 2 ^ 3 =
      (if fCoinBase then 1 else 0) + (if fFirst then 2 else 0) + (if fSecond then 4 else 0) := by
    cases fCoinBase <;> cases fFirst <;> cases fSecond <;> simp [nCode] <;> omega
  have high : nCode / 8 = nMaskCode - (if fFirst || fSecond then 0 else 1) := by
    cases fCoinBase <;> cases fFirst <;> cases fSecond <;> simp [nCode] <;> omega
  rw [and_mod_two_pow nCode 3 (by decide : 1 < 2 ^ 3), and_mod_two_pow nCode 3 (by decide : 2 < 2 ^ 3),
    and_mod_two_pow nCode 3 (by decide : 4 < 2 ^ 3), and_mod_two_pow nCode 3 (by decide : 6 < 2 ^ 3),
    low, high]
  cases fCoinBase <;> cases fFirst <;> cases fSecond <;> simp at asserted ⊢ <;> omega

/-! ### Trailing runs -/

/-- Elements past what `rdropWhile` keeps satisfy its test. -/
theorem rdropWhile_getElem_past {α : Type} (p : α → Bool) (l : List α) {i : Nat}
    (past : (l.rdropWhile p).length ≤ i) (inside : i < l.length) : p l[i] = true := by
  have split : l.rdropWhile p ++ l.rtakeWhile p = l := List.rdropWhile_append_rtakeWhile
  have read : l[i]? = (l.rtakeWhile p)[i - (l.rdropWhile p).length]? := by
    conv => lhs; rw [← split]
    rw [List.getElem?_append_right past]
  rw [List.getElem?_eq_getElem inside] at read
  exact List.mem_rtakeWhile_imp (List.mem_of_getElem? read.symm)

/-- Appending elements that satisfy the test leaves `rdropWhile` as it was. -/
theorem rdropWhile_append_of_all {α : Type} (p : α → Bool) :
    ∀ (l tail : List α), (∀ x ∈ tail, p x = true) → (l ++ tail).rdropWhile p = l.rdropWhile p
  | l, [], _ => by rw [List.append_nil]
  | l, x :: tail, all => by
    rw [← List.singleton_append, ← List.append_assoc,
      rdropWhile_append_of_all p (l ++ [x]) tail fun y mem => all y (List.mem_cons_of_mem x mem),
      List.rdropWhile_concat_pos _ _ _ (all x List.mem_cons_self)]

/-- What `rdropWhile` drops leaves the count of the others unchanged. -/
theorem countP_rdropWhile {α : Type} (p : α → Bool) (l : List α) :
    (l.rdropWhile p).countP (fun x => !p x) = l.countP (fun x => !p x) := by
  have dropped : (l.rtakeWhile p).countP (fun x => !p x) = 0 :=
    List.countP_eq_zero.mpr fun x mem => by simp [List.mem_rtakeWhile_imp mem]
  conv => rhs; rw [← List.rdropWhile_append_rtakeWhile (p := p) (l := l)]
  rw [List.countP_append, dropped, Nat.add_zero]

/-- Spent outputs appended at the end are taken off again by `Cleanup`. -/
theorem dropSpentTail_append_spent (vout tail : List TxOut) (spent : ∀ out ∈ tail, out.IsNull) :
    dropSpentTail (vout ++ tail) = dropSpentTail vout :=
  rdropWhile_append_of_all _ vout tail fun out mem => decide_eq_true (spent out mem)

/-- A prefix of flags padded with clear ones. -/
theorem take_append_replicate {α : Type} (l : List α) (a : α) {L K : Nat} (long : L ≤ K) :
    (l ++ List.replicate K a).take L = l.take L ++ List.replicate (L - l.length) a := by
  rw [List.take_append, List.take_replicate, Nat.min_eq_left (by omega)]

/-! ### The bitmask a record writes -/

/-- The bitmask bytes up to the last nonzero one: those `Serialize` writes. -/
def usedMaskBytes (vout : List TxOut) : List UInt8 :=
  (maskBytes vout (maskGroupCount vout)).rdropWhile (· == 0)

theorem length_maskBytes (vout : List TxOut) (count : Nat) : (maskBytes vout count).length = count := by
  simp [maskBytes]

theorem maskBytes_usedLength (vout : List TxOut) :
    maskBytes vout (usedMaskBytes vout).length = usedMaskBytes vout := by
  have prefixed : usedMaskBytes vout <+: maskBytes vout (maskGroupCount vout) :=
    List.rdropWhile_prefix _ _
  have short : (usedMaskBytes vout).length ≤ maskGroupCount vout := by
    rw [← length_maskBytes vout (maskGroupCount vout)]
    exact prefixed.length_le
  conv => rhs; rw [List.prefix_iff_eq_take.mp prefixed]
  rw [maskBytes, maskBytes, ← List.map_take, List.take_range, Nat.min_eq_left short]

/-- The last byte written is nonzero. -/
theorem getLast?_usedMaskBytes (vout : List TxOut) : (usedMaskBytes vout).getLast? ≠ some 0 := by
  unfold usedMaskBytes
  intro last
  have nonempty : (maskBytes vout (maskGroupCount vout)).rdropWhile (· == 0) ≠ [] := by
    rintro empty
    rw [empty] at last
    cases last
  have notZero := List.rdropWhile_last_not (p := (· == (0 : UInt8))) _ nonempty
  rw [List.getLast?_eq_some_getLast nonempty] at last
  exact notZero (by simpa using Option.some.inj last)

/-- The bytes written hold all the nonzero ones. -/
theorem countP_usedMaskBytes (vout : List TxOut) :
    (usedMaskBytes vout).countP (· != 0) = (maskBytes vout (maskGroupCount vout)).countP (· != 0) :=
  countP_rdropWhile (· == 0) _

/-- Output `j`, from the third on, is in group `(j - 2) / 8`. -/
theorem getElem_mem_maskGroup (vout : List TxOut) {j : Nat} (third : 2 ≤ j) (inside : j < vout.length) :
    (j - 2) / 8 < maskGroupCount vout ∧ vout[j] ∈ maskGroup vout ((j - 2) / 8) := by
  refine ⟨by unfold maskGroupCount; omega, ?_⟩
  have index : 2 + (j - 2) / 8 * 8 + (j - (2 + (j - 2) / 8 * 8)) = j := by omega
  unfold maskGroup
  apply List.mem_iff_getElem.mpr
  refine ⟨j - (2 + (j - 2) / 8 * 8), by simp; omega, ?_⟩
  simp only [List.getElem_take, List.getElem_drop]
  congr 1

theorem getElem_maskBytes (vout : List TxOut) {count b : Nat}
    (below : b < (maskBytes vout count).length) :
    (maskBytes vout count)[b] = maskByte ((maskGroup vout b).map TxOut.unspent) := by
  simp [maskBytes]

/-- The outputs past the bitmask bytes written are all spent. -/
theorem isNull_past_usedMaskBytes (vout : List TxOut) {j : Nat}
    (past : 2 + 8 * (usedMaskBytes vout).length ≤ j) (inside : j < vout.length) : vout[j].IsNull := by
  -- output `j` is in group `(j - 2) / 8`, whose byte is past the last nonzero one
  obtain ⟨group, mem⟩ := getElem_mem_maskGroup vout (by omega) inside
  have zero := rdropWhile_getElem_past (· == (0 : UInt8)) (maskBytes vout (maskGroupCount vout))
    (i := (j - 2) / 8) (by rw [← usedMaskBytes]; omega) (by rw [length_maskBytes]; exact group)
  rw [getElem_maskBytes vout (by rw [length_maskBytes]; exact group), beq_iff_eq] at zero
  have allSpent := List.all_eq_true.mp ((all_isNull_iff vout _).mpr zero)
  simpa using allSpent _ mem

/-- The assertion of `Serialize` holds exactly on coins with an unspent output. -/
theorem serialize_asserted_iff (coins : Coins) :
    (coins.IsAvailable 0 || coins.IsAvailable 1 ||
        (maskBytes coins.vout (maskGroupCount coins.vout)).countP (· != 0) != 0) = true ↔
      coins.IsPruned = false := by
  constructor
  · intro asserted
    simp only [Bool.or_eq_true, bne_iff_ne, ne_eq] at asserted
    rcases asserted with (first | second) | counted
    · exact Coins.isPruned_of_available first
    · exact Coins.isPruned_of_available second
    · -- a nonzero bitmask byte stands for a group with an unspent output
      obtain ⟨byte, mem, nonzero⟩ := List.countP_pos_iff.mp (Nat.pos_of_ne_zero counted)
      obtain ⟨b, -, rfl⟩ := List.mem_map.mp mem
      have live := mt (all_isNull_iff coins.vout b).mp (by simpa using nonzero)
      rw [Coins.IsPruned, Bool.eq_false_iff]
      intro all
      apply live
      rw [List.all_eq_true] at all ⊢
      intro out inGroup
      exact all out (List.mem_of_mem_drop (List.mem_of_mem_take inGroup))
  · intro unspent
    rw [Coins.IsPruned, Bool.eq_false_iff, Ne, List.all_eq_true] at unspent
    push Not at unspent
    obtain ⟨out, mem, live⟩ := unspent
    obtain ⟨j, inside, rfl⟩ := List.getElem_of_mem mem
    simp only [Bool.or_eq_true, bne_iff_ne, ne_eq]
    by_cases third : 2 ≤ j
    · -- from the third output on, the output's group has a nonzero byte
      right
      obtain ⟨group, inGroup⟩ := getElem_mem_maskGroup coins.vout third inside
      apply Nat.pos_iff_ne_zero.mp
      apply List.countP_pos_iff.mpr
      refine ⟨_, List.mem_iff_getElem.mpr ⟨(j - 2) / 8, by rw [length_maskBytes]; exact group, rfl⟩, ?_⟩
      rw [getElem_maskBytes _ (by rw [length_maskBytes]; exact group), bne_iff_ne]
      intro zero
      exact live (List.all_eq_true.mp ((all_isNull_iff coins.vout _).mpr zero) _ inGroup)
    · -- the first two outputs have flags of their own
      left
      have available : coins.IsAvailable j = true := by
        unfold Coins.IsAvailable
        rw [List.getElem?_eq_getElem inside]
        simpa using live
      rcases (show j = 0 ∨ j = 1 by omega) with rfl | rfl
      · exact Or.inl available
      · exact Or.inr available

/-! ### The outputs -/

/-- What a record keeps of an output: `CTxOut()` for a spent one, and for an unspent one
what `CTxOutCompressor` reads back (`back`). -/
def keptOutput (back : TxOut → TxOut) (out : TxOut) : TxOut :=
  if out.IsNull then TxOut.null else back out

theorem readOutputs_clear (curve : Secp256k1) :
    ∀ (N : Nat) (bytes : List UInt8),
      readOutputs curve (List.replicate N false) bytes = some (List.replicate N TxOut.null, bytes)
  | 0, _ => rfl
  | N + 1, bytes => by
    simp [List.replicate_succ, readOutputs, readOutputs_clear curve N bytes]

/-- The outputs loop reads back, position by position, what the writer wrote: a spent
output is `CTxOut()`, an unspent one is what its compressed form reads back as. -/
theorem readOutputs_writeOutputs (curve : Secp256k1) {back : TxOut → TxOut} :
    ∀ (vout : List TxOut), (∀ out ∈ vout, ¬out.IsNull →
      ∀ rest, unserializeTxOut curve (serializeTxOut curve out ++ rest) = some (back out, rest)) →
    ∀ (N : Nat) (rest : List UInt8),
      readOutputs curve (vout.map TxOut.unspent ++ List.replicate N false) (writeOutputs curve vout ++ rest) =
        some (vout.map (keptOutput back) ++ List.replicate N TxOut.null, rest)
  | [], _, N, rest => readOutputs_clear curve N rest
  | out :: vout, each, N, rest => by
    have others := readOutputs_writeOutputs curve vout
      (fun other mem => each other (List.mem_cons_of_mem out mem)) N rest
    by_cases spent : out.IsNull
    · simp only [writeOutputs, List.flatMap_cons, spent, if_true, List.nil_append] at others ⊢
      simp [TxOut.unspent, spent, readOutputs, others, keptOutput]
    · have first := each out List.mem_cons_self spent (writeOutputs curve vout ++ rest)
      simp only [writeOutputs, List.flatMap_cons, spent, if_false, List.append_assoc] at others first ⊢
      simp [TxOut.unspent, spent, readOutputs, first, others, keptOutput]

/-- Spent outputs write nothing. -/
theorem writeOutputs_take (curve : Secp256k1) (vout : List TxOut) (L : Nat)
    (spent : ∀ out ∈ vout.drop L, out.IsNull) :
    writeOutputs curve vout = writeOutputs curve (vout.take L) := by
  have nothing : writeOutputs curve (vout.drop L) = [] :=
    List.flatMap_eq_nil_iff.mpr fun out mem => by simp [spent out mem]
  conv => lhs; rw [← List.take_append_drop L vout]
  rw [writeOutputs, List.flatMap_append, ← writeOutputs, ← writeOutputs, nothing, List.append_nil]

/-- The flags the decoder gathers, the first two from the header and the others from the
bitmask, are those of the outputs up to the last bitmask byte, padded with clear ones. -/
theorem headerFlags_append_maskFlags (coins : Coins) (count : Nat) :
    [coins.IsAvailable 0, coins.IsAvailable 1] ++ (maskBytes coins.vout count).flatMap byteFlags =
      (coins.vout.take (2 + 8 * count)).map TxOut.unspent ++
        List.replicate (2 + 8 * count - coins.vout.length) false := by
  have padded : ∀ N, 2 ≤ N → [coins.IsAvailable 0, coins.IsAvailable 1] =
      (coins.vout.map TxOut.unspent ++ List.replicate N false).take 2 := by
    intro N two
    obtain ⟨M, rfl⟩ : ∃ M, N = M + 2 := ⟨N - 2, by omega⟩
    match coins with
    | ⟨fCoinBase, vout, nHeight, nVersion, fCoinStake, nTime⟩ =>
      match vout with
      | [] => simp [Coins.IsAvailable, List.replicate_succ]
      | [_] => simp [Coins.IsAvailable, List.replicate_succ, TxOut.unspent]
      | _ :: _ :: _ => simp [Coins.IsAvailable, TxOut.unspent]
  have rest : (coins.vout.map TxOut.unspent ++ List.replicate (2 + 8 * count) false).drop 2 =
      (coins.vout.drop 2).map TxOut.unspent ++
        List.replicate (2 + 8 * count - (2 - coins.vout.length)) false := by
    rw [List.drop_append, List.map_drop, List.drop_replicate, List.length_map]
  rw [padded (2 + 8 * count) (by omega), flatMap_maskBytes coins.vout count (2 + 8 * count - (2 - coins.vout.length)) (by omega), ← rest,
    ← List.take_add, take_append_replicate _ _ (Nat.le_refl _), List.map_take, List.length_map]

/-- The outputs read back, cut after the last bitmask byte and padded with `CTxOut()`, clean
up to the outputs as kept. -/
theorem dropSpentTail_keptOutputs (vout : List TxOut) (back : TxOut → TxOut) (L K : Nat)
    (spent : ∀ out ∈ vout.drop L, out.IsNull) :
    dropSpentTail ((vout.take L).map (keptOutput back) ++ List.replicate K TxOut.null) =
      dropSpentTail (vout.map (keptOutput back)) := by
  have nullIsNull : TxOut.null.IsNull := rfl
  have keptSpent : ∀ out ∈ (vout.drop L).map (keptOutput back), out.IsNull := by
    intro out mem
    obtain ⟨dropped, inDrop, rfl⟩ := List.mem_map.mp mem
    simp [keptOutput, spent dropped inDrop, nullIsNull]
  rw [dropSpentTail_append_spent _ _ fun out mem => (List.eq_of_mem_replicate mem) ▸ nullIsNull,
    ← dropSpentTail_append_spent _ _ keptSpent, ← List.map_append, List.take_append_drop]

/-- The header code fits its `unsigned int`. -/
theorem headerCode_lt (coins : Coins) (size : coins.vout.length ≤ MAX_SIZE) (fCoinBase fFirst fSecond : Bool) :
    8 * ((maskBytes coins.vout (maskGroupCount coins.vout)).countP (· != 0) -
      (if fFirst || fSecond then 0 else 1)) + (if fCoinBase then 1 else 0) + (if fFirst then 2 else 0) +
        (if fSecond then 4 else 0) < 2 ^ 32 := by
  have counted := List.countP_le_length (p := (· != (0 : UInt8)))
    (l := maskBytes coins.vout (maskGroupCount coins.vout))
  rw [length_maskBytes] at counted
  have groups : maskGroupCount coins.vout * 8 ≤ coins.vout.length + 6 := by
    unfold maskGroupCount
    omega
  unfold MAX_SIZE at size
  split_ifs <;> omega

/-- A record reads back with its unspent outputs as `CTxOutCompressor` reads them back and
its spent ones as `CTxOut()`, up to the spent outputs at its end: whenever some output is
unspent (the assertion of `Serialize`), the version and the height are non-negative `int`s
and there are no more outputs than a vector holds. -/
theorem Coins.unserialize_serialize_outputs (curve : Secp256k1) {back : TxOut → TxOut}
    (coins : Coins) (unspent : coins.IsPruned = false)
    (version : 0 ≤ coins.nVersion ∧ coins.nVersion < 2 ^ 31)
    (height : 0 ≤ coins.nHeight ∧ coins.nHeight < 2 ^ 31) (size : coins.vout.length ≤ MAX_SIZE)
    (each : ∀ out ∈ coins.vout, ¬out.IsNull →
      ∀ rest, unserializeTxOut curve (serializeTxOut curve out ++ rest) = some (back out, rest)) :
    ∃ bytes, coins.serialize curve = some bytes ∧ ∀ rest,
      Coins.unserialize curve (bytes ++ rest) =
        some (Coins.cleanup { coins with vout := coins.vout.map (keptOutput back) }, rest) := by
  have asserted := (serialize_asserted_iff coins).mpr unspent
  obtain ⟨coinBase, first, second, maskCode⟩ := headerCode_fields _ coins.fCoinBase _ _ asserted
  have fits := headerCode_lt coins size coins.fCoinBase (coins.IsAvailable 0) (coins.IsAvailable 1)
  unfold Coins.serialize
  rw [calcMaskSize_eq, ← usedMaskBytes]
  dsimp only
  simp only [asserted, Bool.not_true, Bool.false_eq_true, if_false]
  refine ⟨_, rfl, fun rest => ?_⟩
  generalize 8 * ((maskBytes coins.vout (maskGroupCount coins.vout)).countP (· != 0) -
      (if (coins.IsAvailable 0 || coins.IsAvailable 1) then 0 else 1)) +
      (if coins.fCoinBase then 1 else 0) + (if coins.IsAvailable 0 then 2 else 0) +
      (if coins.IsAvailable 1 then 4 else 0) = nCode at coinBase first second maskCode fits
  -- the reads, one field after another
  have versionRead := readVarIntSigned_writeVarIntSigned coins.nVersion version
  have codeRead : ∀ rest, readVarInt 32 (writeVarInt 32 (nCode % 2 ^ 32) ++ rest) = some (nCode, rest) := by
    rw [Nat.mod_eq_of_lt fits]
    exact readVarInt_writeVarInt (by decide) nCode fits
  have maskRead : ∀ rest, readMask ((maskBytes coins.vout (maskGroupCount coins.vout)).countP (· != 0))
      (maskBytes coins.vout (usedMaskBytes coins.vout).length ++ rest) =
        some ((maskBytes coins.vout (usedMaskBytes coins.vout).length).flatMap byteFlags, rest) := by
    intro rest
    rw [maskBytes_usedLength, ← countP_usedMaskBytes]
    exact readMask_countP _ (getLast?_usedMaskBytes _) rest
  have spentPast : ∀ out ∈ coins.vout.drop (2 + 8 * (usedMaskBytes coins.vout).length), out.IsNull := by
    intro out mem
    obtain ⟨i, inside, rfl⟩ := List.getElem_of_mem mem
    rw [List.length_drop] at inside
    rw [List.getElem_drop]
    exact isNull_past_usedMaskBytes coins.vout (by omega) _
  have outputsRead := fun rest => writeOutputs_take curve coins.vout _ spentPast ▸
    readOutputs_writeOutputs curve _ (fun out mem => each out (List.mem_of_mem_take mem))
      (2 + 8 * (usedMaskBytes coins.vout).length - coins.vout.length) rest
  have heightRead := readVarIntSigned_writeVarIntSigned coins.nHeight height
  have flagRead := readVarInt_writeVarInt (by decide : 0 < 32) (if coins.fCoinStake then 1 else 0)
    (by split <;> decide)
  have timeRead := readVarInt_writeVarInt (by decide : 0 < 32) coins.nTime.toNat (UInt32.toNat_lt _)
  simp only [Coins.unserialize, List.append_assoc, versionRead, Option.bind_eq_bind, Option.bind_some,
    codeRead, maskCode, maskRead, first, second, headerFlags_append_maskFlags, outputsRead, heightRead,
    flagRead, timeRead, coinBase, Nat.toUInt32_eq, UInt32.ofNat_toNat]
  -- what is left: the flag of a coinstake, and the outputs after `Cleanup`
  have stake : ((if coins.fCoinStake then 1 else 0) &&& 1 != 0) = coins.fCoinStake := by
    cases coins.fCoinStake <;> decide
  simp only [stake, Coins.cleanup, dropSpentTail_keptOutputs coins.vout back _ _ spentPast]

/-! ### Records that read back as written -/

/-- A record the disk format keeps: some output unspent (the assertion of `Serialize`), a
version and a height that are non-negative `int`s, no more outputs than a vector holds,
and every output `SetNull` or one `CTxOutCompressor` keeps. -/
structure Coins.Storable (coins : Coins) : Prop where
  unspent : coins.IsPruned = false
  version : 0 ≤ coins.nVersion ∧ coins.nVersion < 2 ^ 31
  height : 0 ≤ coins.nHeight ∧ coins.nHeight < 2 ^ 31
  size : coins.vout.length ≤ MAX_SIZE
  outputs : ∀ out ∈ coins.vout, out = TxOut.null ∨ TxOut.Compressible out

/-- Coins that undo data can store, as `ConnectBlock` leaves them, are records the disk
format keeps once some output is unspent. -/
theorem CoinsStorable.storable {coins : Coins} (storable : CoinsStorable coins)
    (unspent : coins.IsPruned = false) : coins.Storable where
  unspent := unspent
  version := storable.version
  height := by
    obtain ⟨positive, below⟩ := storable.height
    exact ⟨by omega, by omega⟩
  size := storable.size
  outputs := storable.outputs

/-- What the record keeps of its outputs is what they were. -/
theorem map_keptOutput_id {vout : List TxOut}
    (outputs : ∀ out ∈ vout, out = TxOut.null ∨ TxOut.Compressible out) :
    vout.map (keptOutput id) = vout := by
  have same : ∀ out ∈ vout, keptOutput id out = out := by
    intro out mem
    rcases outputs out mem with rfl | ⟨⟨nonneg, _⟩, _⟩
    · rfl
    · have live : ¬out.IsNull := by unfold TxOut.IsNull; omega
      simp [keptOutput, live]
  rw [List.map_congr_left same, List.map_id']

/-- `CCoins` reads back from the coins database as it was written, up to the spent outputs
at its end that `Cleanup` drops. -/
theorem coinsRecord_roundTrip (curve : Secp256k1) (coins : Coins) (storable : coins.Storable) :
    ∃ bytes, coins.serialize curve = some bytes ∧
      ∀ rest, Coins.unserialize curve (bytes ++ rest) = some (coins.cleanup, rest) := by
  have each : ∀ out ∈ coins.vout, ¬out.IsNull →
      ∀ rest, unserializeTxOut curve (serializeTxOut curve out ++ rest) = some (id out, rest) := by
    intro out mem live rest
    rcases storable.outputs out mem with rfl | compressible
    · exact absurd rfl live
    · exact unserializeTxOut_serializeTxOut curve out compressible rest
  obtain ⟨bytes, written, read⟩ := Coins.unserialize_serialize_outputs curve coins storable.unspent
    storable.version storable.height storable.size each
  refine ⟨bytes, written, fun rest => ?_⟩
  rw [read rest, map_keptOutput_id storable.outputs]

/-- A record of twelve outputs, of which the fourth and the last are unspent: two bitmask
bytes, both nonzero. -/
def sampleRecord : Coins :=
  ⟨true, [TxOut.null, TxOut.null, TxOut.null, ⟨1, [0x51]⟩, TxOut.null, TxOut.null, TxOut.null,
    TxOut.null, TxOut.null, TxOut.null, TxOut.null, ⟨2, [0x51]⟩], 7, 1, false, 0⟩

theorem coinsRecord_roundTrip_sample :
    sampleRecord.Storable ∧ ∃ bytes, sampleRecord.serialize noValidKeys = some bytes ∧
      ∀ rest, Coins.unserialize noValidKeys (bytes ++ rest) = some (sampleRecord.cleanup, rest) := by
  have storable : sampleRecord.Storable :=
    ⟨by decide, by decide, by decide, by decide,
      by simp [sampleRecord, TxOut.Compressible, MoneyRange, MAX_MONEY, COIN, MAX_SCRIPT_SIZE]⟩
  exact ⟨storable, coinsRecord_roundTrip noValidKeys sampleRecord storable⟩

/-- A record whose one unspent output pays to a script of 22001 bytes, one more than
`MAX_SCRIPT_SIZE`. -/
def overlongRecord : Coins := ⟨false, [⟨0, List.replicate 22001 0x51⟩], 1, 1, false, 0⟩

/-- A record with an unspent output whose script is longer than `MAX_SCRIPT_SIZE` does not
read back as written: the script comes back as `OP_RETURN`. -/
theorem Coins.unserialize_serialize_overlong_anyCurve (curve : Secp256k1) :
    overlongRecord.IsPruned = false ∧ 0 ≤ overlongRecord.nVersion ∧ 0 ≤ overlongRecord.nHeight ∧
      (∀ out ∈ overlongRecord.vout, MoneyRange out.nValue) ∧
      ∃ bytes, overlongRecord.serialize curve = some bytes ∧
        Coins.unserialize curve bytes = some (⟨false, [⟨0, [OP_RETURN]⟩], 1, 1, false, 0⟩, []) ∧
        overlongRecord.cleanup ≠ ⟨false, [⟨0, [OP_RETURN]⟩], 1, 1, false, 0⟩ := by
  have range : ∀ out ∈ overlongRecord.vout, MoneyRange out.nValue := by
    intro out mem
    rw [overlongRecord, List.mem_singleton] at mem
    subst mem
    decide
  have each : ∀ out ∈ overlongRecord.vout, ¬out.IsNull → ∀ rest,
      unserializeTxOut curve (serializeTxOut curve out ++ rest) =
        some ((fun out : TxOut => (⟨out.nValue, [OP_RETURN]⟩ : TxOut)) out, rest) := by
    intro out mem _ rest
    have length : out.scriptPubKey.length = 22001 := by
      rw [overlongRecord, List.mem_singleton] at mem
      rw [mem, List.length_replicate]
    exact unserializeTxOut_overlong curve (range out mem) (by rw [length]; decide)
      (by rw [length]; decide) rest
  obtain ⟨bytes, written, read⟩ := Coins.unserialize_serialize_outputs curve overlongRecord rfl
    (by decide) (by decide) (by decide) each
  refine ⟨rfl, by decide, by decide, range, bytes, written, ?_, ?_⟩
  · rw [← List.append_nil bytes, read]
    rfl
  · intro same
    have cleaned : overlongRecord.cleanup = overlongRecord := rfl
    have lengths := congrArg (fun coins : Coins => coins.vout.map (·.scriptPubKey.length)) same
    rw [cleaned] at lengths
    change [(List.replicate 22001 (0x51 : UInt8)).length] = [1] at lengths
    rw [List.length_replicate] at lengths
    cases lengths

/-- The same, on the curve that accepts no key. -/
theorem Coins.unserialize_serialize_overlong :
    overlongRecord.IsPruned = false ∧ 0 ≤ overlongRecord.nVersion ∧ 0 ≤ overlongRecord.nHeight ∧
      (∀ out ∈ overlongRecord.vout, MoneyRange out.nValue) ∧
      ∃ bytes, overlongRecord.serialize noValidKeys = some bytes ∧
        Coins.unserialize noValidKeys bytes = some (⟨false, [⟨0, [OP_RETURN]⟩], 1, 1, false, 0⟩, []) ∧
        overlongRecord.cleanup ≠ ⟨false, [⟨0, [OP_RETURN]⟩], 1, 1, false, 0⟩ :=
  Coins.unserialize_serialize_overlong_anyCurve noValidKeys

end MFCoin.CoinsView
