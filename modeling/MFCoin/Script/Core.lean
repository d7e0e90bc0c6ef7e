/-
Module: MFCoin.Script.Core
Purpose: The byte-level reading of scripts that every script consumer shares
  (src/src/script/script.h): opcode values, `CScript::GetOp2` with the iterator it leaves
  behind on failure, and `CScriptNum` decoding with its overflow exception.
Trusted boundary: none
Main exports: Opcode constants, GetOpResult, getOp, getOp_pc_gt, getOp_append,
  getOp_append_right, scriptNumDecode, scriptNumSerialize, pushData, payToPubKeyHash,
  TxDestination, getScriptForDestination
-/
import MFCoin.Primitives.Transaction

namespace MFCoin.Script

/-! ### Opcodes used by the modelled code -/

def OP_0 : UInt8 := 0x00
def OP_PUSHDATA1 : UInt8 := 0x4c
def OP_PUSHDATA2 : UInt8 := 0x4d
def OP_PUSHDATA4 : UInt8 := 0x4e
def OP_1 : UInt8 := 0x51
def OP_16 : UInt8 := 0x60
@[match_pattern] def OP_2DROP : UInt8 := 0x6d
@[match_pattern] def OP_DROP : UInt8 := 0x75
@[match_pattern] def OP_DUP : UInt8 := 0x76
@[match_pattern] def OP_EQUAL : UInt8 := 0x87
@[match_pattern] def OP_EQUALVERIFY : UInt8 := 0x88
@[match_pattern] def OP_HASH160 : UInt8 := 0xa9
@[match_pattern] def OP_CHECKSIG : UInt8 := 0xac
def OP_INVALIDOPCODE : UInt8 := 0xff

/-! ### `GetOp` -/

/-- What `GetOp2` hands back: success, the iterator after the call (advanced even on a
failed read), the opcode (`OP_INVALIDOPCODE` on failure) and the pushed bytes. -/
structure GetOpResult where
  ok : Bool
  pc : Nat
  opcode : UInt8
  data : List UInt8
deriving DecidableEq, Repr

/-- Little-endian value of a byte string (`ReadLE16`, `ReadLE32`). -/
def readLE : List UInt8 → Nat
  | [] => 0
  | b :: rest => b.toNat + 256 * readLE rest

/-- The immediate-operand part of `GetOp2` after the opcode byte: the push size and the
iterator past the size bytes, or `none` when the size bytes run past the end. -/
def pushSize (script : Script) (opcode : UInt8) (pc : Nat) : Option (Nat × Nat) :=
  if opcode < OP_PUSHDATA1 then some (opcode.toNat, pc)
  else if opcode = OP_PUSHDATA1 then
    if script.length - pc < 1 then none else some (readLE ((script.drop pc).take 1), pc + 1)
  else if opcode = OP_PUSHDATA2 then
    if script.length - pc < 2 then none else some (readLE ((script.drop pc).take 2), pc + 2)
  else
    if script.length - pc < 4 then none else some (readLE ((script.drop pc).take 4), pc + 4)

/-- `CScript::GetOp2(pc, opcodeRet, pvchRet)`. -/
def getOp (script : Script) (pc : Nat) : GetOpResult :=
  match script[pc]? with
  | none => ⟨false, pc, OP_INVALIDOPCODE, []⟩
  | some opcode =>
    if opcode ≤ OP_PUSHDATA4 then
      match pushSize script opcode (pc + 1) with
      | none => ⟨false, pc + 1, OP_INVALIDOPCODE, []⟩
      | some (size, start) =>
        if script.length - start < size then ⟨false, start, OP_INVALIDOPCODE, []⟩
        else ⟨true, start + size, opcode, (script.drop start).take size⟩
    else ⟨true, pc + 1, opcode, []⟩

theorem pushSize_pc_ge {script : Script} {opcode : UInt8} {pc size start : Nat}
    (read : pushSize script opcode pc = some (size, start)) : pc ≤ start := by
  unfold pushSize at read
  split_ifs at read <;> (simp only [Option.some.injEq, Prod.mk.injEq] at read; omega)

/-- A successful read consumes at least the opcode byte. -/
theorem getOp_pc_gt {script : Script} {pc : Nat} (read : (getOp script pc).ok = true) :
    pc < (getOp script pc).pc := by
  unfold getOp at read ⊢
  cases byte : script[pc]? with
  | none => simp [byte] at read
  | some opcode =>
    simp only [byte] at read ⊢
    split_ifs at read ⊢ with push
    · cases sized : pushSize script opcode (pc + 1) with
      | none => simp [sized] at read
      | some sizeStart =>
        obtain ⟨size, start⟩ := sizeStart
        have := pushSize_pc_ge sized
        simp only [sized] at read ⊢
        split_ifs at read ⊢
        dsimp only
        omega
    · simp

/-! ### Reading through a concatenation -/

/-- Taking bytes that lie inside the first part of a concatenation reads only that part. -/
theorem take_drop_append {P D : Script} {k n : Nat} (inside : n ≤ P.length - k) :
    ((P ++ D).drop k).take n = (P.drop k).take n := by
  by_cases within : k ≤ P.length
  · rw [List.drop_append_of_le_length within, List.take_append_of_le_length (by simp; omega)]
  · obtain rfl : n = 0 := by omega
    simp

/-- A push size read inside a script reads the same behind anything appended to it. -/
theorem pushSize_append {P D : Script} {opcode : UInt8} {pc : Nat} {r : Nat × Nat}
    (read : pushSize P opcode pc = some r) : pushSize (P ++ D) opcode pc = some r := by
  have longer : P.length - pc ≤ (P ++ D).length - pc := by simp; omega
  unfold pushSize at read ⊢
  split_ifs at read ⊢ <;> first
    | exact read
    | omega
    | (rw [take_drop_append (by omega)]; exact read)

/-- A push size read behind a prefix reads as in the script alone, moved by the prefix. -/
theorem pushSize_append_right (P D : Script) (opcode : UInt8) (pc : Nat) :
    pushSize (P ++ D) opcode (P.length + pc) =
      (pushSize D opcode pc).map fun r => (r.1, P.length + r.2) := by
  have rest : (P ++ D).length - (P.length + pc) = D.length - pc := by simp; omega
  have dropped : (P ++ D).drop (P.length + pc) = D.drop pc := List.drop_length_add_append pc
  unfold pushSize
  split_ifs <;> simp_all [Nat.add_assoc]

/-- Reading behind a prefix reads as in the script alone, the iterator moved by the
prefix. -/
theorem getOp_append_right (P D : Script) (pc : Nat) :
    getOp (P ++ D) (P.length + pc) = { getOp D pc with pc := P.length + (getOp D pc).pc } := by
  have byte : (P ++ D)[P.length + pc]? = D[pc]? := by simp [List.getElem?_append_right]
  have rest : ∀ q, (P ++ D).length - (P.length + q) = D.length - q := by intro q; simp; omega
  have dropped : ∀ q, (P ++ D).drop (P.length + q) = D.drop q :=
    fun q => List.drop_length_add_append q
  unfold getOp
  rw [byte]
  cases D[pc]? with
  | none => rfl
  | some opcode =>
    simp only
    split_ifs with push
    · rw [show P.length + pc + 1 = P.length + (pc + 1) by omega, pushSize_append_right]
      cases pushSize D opcode (pc + 1) with
      | none => simp
      | some r =>
        obtain ⟨size, start⟩ := r
        simp only [Option.map_some, rest, dropped]
        split_ifs <;> simp [Nat.add_assoc]
    · simp [Nat.add_assoc]

/-- A successful read inside a script reads the same behind anything appended to it. -/
theorem getOp_append {P D : Script} {pc : Nat} (read : (getOp P pc).ok = true) :
    getOp (P ++ D) pc = getOp P pc := by
  unfold getOp at read ⊢
  cases byte : P[pc]? with
  | none => simp [byte] at read
  | some opcode =>
    have inside : pc < P.length := (List.getElem?_eq_some_iff.mp byte).1
    rw [List.getElem?_append_left inside, byte]
    simp only [byte] at read ⊢
    split_ifs at read ⊢ with push
    · cases sized : pushSize P opcode (pc + 1) with
      | none => simp [sized] at read
      | some r =>
        obtain ⟨size, start⟩ := r
        have fits : ¬ P.length - start < size := by
          intro short
          simp [sized, short] at read
        have fits' : ¬ (P ++ D).length - start < size := by simp; omega
        rw [pushSize_append sized]
        simp only [fits, fits', if_false]
        rw [take_drop_append (by omega)]
    · rfl

/-- The size bytes a push reads lie inside the script. -/
theorem pushSize_start_le {script : Script} {opcode : UInt8} {pc size start : Nat}
    (read : pushSize script opcode pc = some (size, start)) (inside : pc ≤ script.length) :
    start ≤ script.length := by
  unfold pushSize at read
  split_ifs at read <;> (simp only [Option.some.injEq, Prod.mk.injEq] at read; omega)

/-- A successful read ends inside the script. -/
theorem getOp_pc_le {script : Script} {pc : Nat} (read : (getOp script pc).ok = true) :
    (getOp script pc).pc ≤ script.length := by
  unfold getOp at read ⊢
  cases byte : script[pc]? with
  | none => simp [byte] at read
  | some opcode =>
    have inside : pc < script.length := (List.getElem?_eq_some_iff.mp byte).1
    simp only [byte] at read ⊢
    split_ifs at read ⊢ with push
    · cases sized : pushSize script opcode (pc + 1) with
      | none => simp [sized] at read
      | some r =>
        obtain ⟨size, start⟩ := r
        have := pushSize_start_le sized (by omega)
        simp only [sized] at read ⊢
        split_ifs at read ⊢
        dsimp only
        omega
    · dsimp only
      omega

/-! ### `CScriptNum` -/

/-- Why `CScriptNum`'s constructor throws `scriptnum_error`. -/
inductive ScriptNumError where
  | overflow
deriving DecidableEq, Repr

/-- `CScriptNum::set_vch`: little-endian magnitude, sign in the top bit of the last byte. -/
def setVch (vch : List UInt8) : Int :=
  match vch.getLast? with
  | none => 0
  | some last =>
    if last &&& 0x80 ≠ 0 then
      -((readLE vch - 0x80 * 256 ^ (vch.length - 1) : Nat) : Int)
    else readLE vch

/-- `CScriptNum::getint`: the value clamped to `int`. -/
def getint (value : Int) : Int :=
  if value > 2147483647 then 2147483647
  else if value < -2147483648 then -2147483648
  else value

/-- `CScriptNum(vch, false).getint()` with the default `nMaxNumSize = 4`: more than four
bytes throw. -/
def scriptNumDecode (vch : List UInt8) : Except ScriptNumError Int :=
  if vch.length > 4 then .error .overflow else .ok (getint (setVch vch))

/-- The byte loop of `CScriptNum::serialize` on a magnitude of at most `width` bytes,
least significant byte first. -/
def leBytes : Nat → Nat → List UInt8
  | 0, _ => []
  | width + 1, n => if n = 0 then [] else (n % 256).toUInt8 :: leBytes width (n / 256)

/-- `CScriptNum::serialize`: a sign bit is added on top of the magnitude, in a byte of its
own when the top bit is taken. -/
def scriptNumSerialize (value : Int) : List UInt8 :=
  -- `absvalue` is a `uint64_t`: eight rounds of the loop empty it
  let result := leBytes 8 value.natAbs
  match result.getLast? with
  | none => []
  | some last =>
    if last &&& 0x80 ≠ 0 then result ++ [if value < 0 then 0x80 else 0]
    else if value < 0 then result.dropLast ++ [last ||| 0x80]
    else result

/-- `WriteLE16` / `WriteLE32`: the low `width` bytes of `n`, least significant first. -/
def writeLE (width n : Nat) : List UInt8 :=
  (List.range width).map fun i => (n / 256 ^ i).toUInt8

/-- `CScript::operator<<(const std::vector<unsigned char>&)`: the shortest push for the
size, then the bytes. -/
def pushData (b : List UInt8) : Script :=
  let header :=
    if b.length < OP_PUSHDATA1.toNat then [b.length.toUInt8]
    else if b.length ≤ 0xff then [OP_PUSHDATA1, b.length.toUInt8]
    else if b.length ≤ 0xffff then OP_PUSHDATA2 :: writeLE 2 b.length
    else OP_PUSHDATA4 :: writeLE 4 b.length
  header ++ b

/-- `GetScriptForDestination(CKeyID)`: `OP_DUP OP_HASH160 <keyID> OP_EQUALVERIFY
OP_CHECKSIG`. -/
def payToPubKeyHash (keyId : List UInt8) : Script :=
  [OP_DUP, OP_HASH160] ++ pushData keyId ++ [OP_EQUALVERIFY, OP_CHECKSIG]

/-- `CTxDestination`: none, a key hash or a script hash, each `uint160` taken as its
bytes. -/
inductive TxDestination where
  | noDestination
  | keyId (id : List UInt8)
  | scriptId (id : List UInt8)
deriving DecidableEq, Repr

/-- `GetScriptForDestination` (`CScriptVisitor`): pay to a key hash, to a script hash
(`OP_HASH160 <scriptID> OP_EQUAL`), or the empty script. -/
def getScriptForDestination : TxDestination → Script
  | .noDestination => []
  | .keyId keyId => payToPubKeyHash keyId
  | .scriptId scriptId => [OP_HASH160] ++ pushData scriptId ++ [OP_EQUAL]

end MFCoin.Script
