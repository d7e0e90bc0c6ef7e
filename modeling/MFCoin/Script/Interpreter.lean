/-
Module: MFCoin.Script.Interpreter
Purpose: The script interpreter (src/src/script/interpreter.cpp, script.h): `CastToBool`,
  `CScriptNum` with its size and minimal-encoding checks, the signature and public-key
  encoding checks, `CScript::FindAndDelete`, and `EvalScript` with its loop, its limits,
  its conditionals and its opcode switch, `CHECKSIG` and `CHECKMULTISIG` included. The
  stacks are lists with their top first. `EvalScript`'s `while (pc < pend)` is a loop with
  `script.length` rounds of fuel, which is enough (`evalLoop_fuel`): every round reads at
  least one byte.
Trusted boundary: the hash functions and `CPubKey::CheckLowS` (`ScriptCrypto`), and the
  transaction's `BaseSignatureChecker` (`SignatureChecker`), taken as given functions.
Main exports: VerifyFlags, ScriptError, SigVersion, ScriptCrypto, SignatureChecker,
  castToBool, scriptNum, findAndDelete, execStackOp, execOp, evalStep, evalLoop,
  evalScript, evalStep_eq_ok, evalLoop_fuel
-/
import MFCoin.Coins.Coins
import MFCoin.Lib.ExceptRun

namespace MFCoin.Script

open MFCoin.CoinsView (MAX_SCRIPT_SIZE OP_RETURN)

/-! ### Opcodes, flags and errors -/

@[match_pattern] def OP_1NEGATE : UInt8 := 0x4f
@[match_pattern] def OP_NOP : UInt8 := 0x61
@[match_pattern] def OP_IF : UInt8 := 0x63
@[match_pattern] def OP_NOTIF : UInt8 := 0x64
@[match_pattern] def OP_ELSE : UInt8 := 0x67
@[match_pattern] def OP_ENDIF : UInt8 := 0x68
@[match_pattern] def OP_VERIFY : UInt8 := 0x69
@[match_pattern] def OP_TOALTSTACK : UInt8 := 0x6b
@[match_pattern] def OP_FROMALTSTACK : UInt8 := 0x6c
@[match_pattern] def OP_2DUP : UInt8 := 0x6e
@[match_pattern] def OP_3DUP : UInt8 := 0x6f
@[match_pattern] def OP_2OVER : UInt8 := 0x70
@[match_pattern] def OP_2ROT : UInt8 := 0x71
@[match_pattern] def OP_2SWAP : UInt8 := 0x72
@[match_pattern] def OP_IFDUP : UInt8 := 0x73
@[match_pattern] def OP_DEPTH : UInt8 := 0x74
@[match_pattern] def OP_NIP : UInt8 := 0x77
@[match_pattern] def OP_OVER : UInt8 := 0x78
@[match_pattern] def OP_PICK : UInt8 := 0x79
@[match_pattern] def OP_ROLL : UInt8 := 0x7a
@[match_pattern] def OP_ROT : UInt8 := 0x7b
@[match_pattern] def OP_SWAP : UInt8 := 0x7c
@[match_pattern] def OP_TUCK : UInt8 := 0x7d
def OP_CAT : UInt8 := 0x7e
def OP_SUBSTR : UInt8 := 0x7f
def OP_LEFT : UInt8 := 0x80
def OP_RIGHT : UInt8 := 0x81
@[match_pattern] def OP_SIZE : UInt8 := 0x82
def OP_INVERT : UInt8 := 0x83
def OP_AND : UInt8 := 0x84
def OP_OR : UInt8 := 0x85
def OP_XOR : UInt8 := 0x86
@[match_pattern] def OP_1ADD : UInt8 := 0x8b
@[match_pattern] def OP_1SUB : UInt8 := 0x8c
def OP_2MUL : UInt8 := 0x8d
def OP_2DIV : UInt8 := 0x8e
@[match_pattern] def OP_NEGATE : UInt8 := 0x8f
@[match_pattern] def OP_ABS : UInt8 := 0x90
@[match_pattern] def OP_NOT : UInt8 := 0x91
@[match_pattern] def OP_0NOTEQUAL : UInt8 := 0x92
@[match_pattern] def OP_ADD : UInt8 := 0x93
@[match_pattern] def OP_SUB : UInt8 := 0x94
def OP_MUL : UInt8 := 0x95
def OP_DIV : UInt8 := 0x96
def OP_MOD : UInt8 := 0x97
def OP_LSHIFT : UInt8 := 0x98
def OP_RSHIFT : UInt8 := 0x99
@[match_pattern] def OP_BOOLAND : UInt8 := 0x9a
@[match_pattern] def OP_BOOLOR : UInt8 := 0x9b
@[match_pattern] def OP_NUMEQUAL : UInt8 := 0x9c
@[match_pattern] def OP_NUMEQUALVERIFY : UInt8 := 0x9d
@[match_pattern] def OP_NUMNOTEQUAL : UInt8 := 0x9e
@[match_pattern] def OP_LESSTHAN : UInt8 := 0x9f
@[match_pattern] def OP_GREATERTHAN : UInt8 := 0xa0
@[match_pattern] def OP_LESSTHANOREQUAL : UInt8 := 0xa1
@[match_pattern] def OP_GREATERTHANOREQUAL : UInt8 := 0xa2
@[match_pattern] def OP_MIN : UInt8 := 0xa3
@[match_pattern] def OP_MAX : UInt8 := 0xa4
@[match_pattern] def OP_WITHIN : UInt8 := 0xa5
@[match_pattern] def OP_RIPEMD160 : UInt8 := 0xa6
@[match_pattern] def OP_SHA1 : UInt8 := 0xa7
@[match_pattern] def OP_SHA256 : UInt8 := 0xa8
@[match_pattern] def OP_HASH256 : UInt8 := 0xaa
@[match_pattern] def OP_CODESEPARATOR : UInt8 := 0xab
@[match_pattern] def OP_CHECKSIGVERIFY : UInt8 := 0xad
@[match_pattern] def OP_CHECKMULTISIG : UInt8 := 0xae
@[match_pattern] def OP_CHECKMULTISIGVERIFY : UInt8 := 0xaf
@[match_pattern] def OP_NOP1 : UInt8 := 0xb0
@[match_pattern] def OP_CHECKLOCKTIMEVERIFY : UInt8 := 0xb1
@[match_pattern] def OP_CHECKSEQUENCEVERIFY : UInt8 := 0xb2
@[match_pattern] def OP_NOP4 : UInt8 := 0xb3
@[match_pattern] def OP_NOP5 : UInt8 := 0xb4
@[match_pattern] def OP_NOP6 : UInt8 := 0xb5
@[match_pattern] def OP_NOP7 : UInt8 := 0xb6
@[match_pattern] def OP_NOP8 : UInt8 := 0xb7
@[match_pattern] def OP_NOP9 : UInt8 := 0xb8
@[match_pattern] def OP_NOP10 : UInt8 := 0xb9

def MAX_SCRIPT_ELEMENT_SIZE : Nat := 520
def MAX_OPS_PER_SCRIPT : Nat := 201
def MAX_PUBKEYS_PER_MULTISIG : Int := 20

/-- `CTxIn::SEQUENCE_LOCKTIME_DISABLE_FLAG`. -/
def SEQUENCE_LOCKTIME_DISABLE_FLAG : Nat := 2 ^ 31

/-- The `SCRIPT_VERIFY_*` bits of the `flags` word, one field each. -/
structure VerifyFlags where
  P2SH : Bool := false
  STRICTENC : Bool := false
  DERSIG : Bool := false
  LOW_S : Bool := false
  NULLDUMMY : Bool := false
  SIGPUSHONLY : Bool := false
  MINIMALDATA : Bool := false
  DISCOURAGE_UPGRADABLE_NOPS : Bool := false
  CLEANSTACK : Bool := false
  CHECKLOCKTIMEVERIFY : Bool := false
  CHECKSEQUENCEVERIFY : Bool := false
  WITNESS : Bool := false
  DISCOURAGE_UPGRADABLE_WITNESS_PROGRAM : Bool := false
  MINIMALIF : Bool := false
  NULLFAIL : Bool := false
  WITNESS_PUBKEYTYPE : Bool := false
deriving DecidableEq, Repr

/-- `ScriptError` without `SCRIPT_ERR_OK`: what a failing script reports. -/
inductive ScriptError where
  | UNKNOWN_ERROR
  | EVAL_FALSE
  | OP_RETURN
  | SCRIPT_SIZE
  | PUSH_SIZE
  | OP_COUNT
  | STACK_SIZE
  | SIG_COUNT
  | PUBKEY_COUNT
  | VERIFY
  | EQUALVERIFY
  | CHECKMULTISIGVERIFY
  | CHECKSIGVERIFY
  | NUMEQUALVERIFY
  | BAD_OPCODE
  | DISABLED_OPCODE
  | INVALID_STACK_OPERATION
  | INVALID_ALTSTACK_OPERATION
  | UNBALANCED_CONDITIONAL
  | NEGATIVE_LOCKTIME
  | UNSATISFIED_LOCKTIME
  | SIG_HASHTYPE
  | SIG_DER
  | MINIMALDATA
  | SIG_PUSHONLY
  | SIG_HIGH_S
  | SIG_NULLDUMMY
  | PUBKEYTYPE
  | CLEANSTACK
  | MINIMALIF
  | SIG_NULLFAIL
  | DISCOURAGE_UPGRADABLE_NOPS
  | DISCOURAGE_UPGRADABLE_WITNESS_PROGRAM
  | WITNESS_PROGRAM_WRONG_LENGTH
  | WITNESS_PROGRAM_WITNESS_EMPTY
  | WITNESS_PROGRAM_MISMATCH
  | WITNESS_MALLEATED
  | WITNESS_MALLEATED_P2SH
  | WITNESS_UNEXPECTED
  | WITNESS_PUBKEYTYPE
deriving DecidableEq, Repr

/-- `SigVersion`. -/
inductive SigVersion where
  | BASE
  | WITNESS_V0
deriving DecidableEq, Repr

/-- The hash functions behind `OP_RIPEMD160`, `OP_SHA1` and `OP_SHA256`, and
`CPubKey::CheckLowS`. -/
structure ScriptCrypto where
  ripemd160 : List UInt8 → List UInt8
  sha1 : List UInt8 → List UInt8
  sha256 : List UInt8 → List UInt8
  checkLowS : List UInt8 → Bool

/-- `CHash160`: RIPEMD-160 of SHA-256. -/
def ScriptCrypto.hash160 (crypto : ScriptCrypto) (b : List UInt8) : List UInt8 :=
  crypto.ripemd160 (crypto.sha256 b)

/-- `CHash256`: SHA-256 twice. -/
def ScriptCrypto.hash256 (crypto : ScriptCrypto) (b : List UInt8) : List UInt8 :=
  crypto.sha256 (crypto.sha256 b)

/-- `BaseSignatureChecker`: what the interpreter asks the spending transaction. -/
structure SignatureChecker where
  CheckSig : List UInt8 → List UInt8 → Script → SigVersion → Bool
  CheckLockTime : Int → Bool
  CheckSequence : Int → Bool

/-- A checker whose signature answers do not depend on the script code it is handed. -/
def SignatureChecker.IgnoresScriptCode (checker : SignatureChecker) : Prop :=
  ∀ vchSig vchPubKey scriptCode sigversion,
    checker.CheckSig vchSig vchPubKey scriptCode sigversion =
      checker.CheckSig vchSig vchPubKey [] sigversion

/-- The arguments of `EvalScript` that stay fixed while it runs. -/
structure Env where
  crypto : ScriptCrypto
  flags : VerifyFlags
  checker : SignatureChecker
  sigversion : SigVersion

/-! ### Values on the stack -/

/-- The main stack or the alt stack: `vector<valtype>`, its top first. -/
abbrev Stack := List (List UInt8)

/-- `CastToBool`: any non-zero byte makes it true, except a lone sign bit at the end
(negative zero). -/
def castToBool : List UInt8 → Bool
  | [] => false
  | [last] => last != 0 && last != 0x80
  | b :: rest => b != 0 || castToBool rest

def vchTrue : List UInt8 := [1]
def vchFalse : List UInt8 := []

/-- `CScriptNum(vch, fRequireMinimal, nMaxNumSize)`: the value, or `none` where the
constructor throws `scriptnum_error`, for a number longer than `nMaxNumSize` or, when
required, not minimally encoded. `EvalScript` catches the exception as `UNKNOWN_ERROR`. -/
def scriptNum (vch : List UInt8) (fRequireMinimal : Bool) (nMaxNumSize : Nat) : Option Int :=
  if vch.length > nMaxNumSize then none
  else
    -- the most significant byte without its sign bit must not be zero, unless the byte
    -- below needs the sign bit to itself
    let nonMinimal :=
      match vch.reverse with
      | [] => false
      | last :: below =>
        last &&& 0x7f == 0 &&
          match below with
          | [] => true
          | next :: _ => next &&& 0x80 == 0
    if fRequireMinimal && nonMinimal then none else some (setVch vch)

/-- `CheckMinimalPush`: the data could not have been pushed by a shorter opcode. -/
def checkMinimalPush (data : List UInt8) (opcode : UInt8) : Bool :=
  match data with
  | [] => opcode == OP_0
  | [b] =>
    if 1 ≤ b ∧ b ≤ 16 then opcode == OP_1 + (b - 1)
    else if b = 0x81 then opcode == OP_1NEGATE
    else opcode.toNat == 1
  | _ =>
    if data.length ≤ 75 then opcode.toNat == data.length
    else if data.length ≤ 255 then opcode == OP_PUSHDATA1
    else if data.length ≤ 65535 then opcode == OP_PUSHDATA2
    else true

/-! ### Signature and public-key encodings -/

/-- `IsValidSignatureEncoding`: strict DER, `0x30 len 0x02 lenR R 0x02 lenS S hashtype`,
with positive, minimally padded `R` and `S`. -/
def isValidSignatureEncoding (sig : List UInt8) : Bool :=
  let byte (i : Nat) : Nat := (sig.getD i 0).toNat
  let lenR := byte 3
  let lenS := byte (5 + lenR)
  sig.length ≥ 9 && sig.length ≤ 73 && byte 0 == 0x30 && byte 1 == sig.length - 3 &&
    5 + lenR < sig.length && lenR + lenS + 7 == sig.length && byte 2 == 0x02 &&
    lenR != 0 && byte 4 &&& 0x80 == 0 &&
    !(lenR > 1 && byte 4 == 0 && byte 5 &&& 0x80 == 0) &&
    byte (lenR + 4) == 0x02 && lenS != 0 && byte (lenR + 6) &&& 0x80 == 0 &&
    !(lenS > 1 && byte (lenR + 6) == 0 && byte (lenR + 7) &&& 0x80 == 0)

/-- `IsLowDERSignature`. -/
def isLowDERSignature (crypto : ScriptCrypto) (vchSig : List UInt8) : Except ScriptError Unit :=
  if !isValidSignatureEncoding vchSig then .error .SIG_DER
  else if !crypto.checkLowS vchSig.dropLast then .error .SIG_HIGH_S
  else .ok ()

/-- `IsDefinedHashtypeSignature`: the hash type without `SIGHASH_ANYONECANPAY` is
`SIGHASH_ALL`, `SIGHASH_NONE` or `SIGHASH_SINGLE`. -/
def isDefinedHashtypeSignature (vchSig : List UInt8) : Bool :=
  match vchSig.getLast? with
  | none => false
  | some last =>
    let nHashType := last &&& ~~~0x80
    1 ≤ nHashType && nHashType ≤ 3

/-- `CheckSignatureEncoding`; the empty signature is always allowed. -/
def checkSignatureEncoding (crypto : ScriptCrypto) (vchSig : List UInt8) (flags : VerifyFlags) :
    Except ScriptError Unit :=
  if vchSig = [] then .ok ()
  else if (flags.DERSIG || flags.LOW_S || flags.STRICTENC) && !isValidSignatureEncoding vchSig then
    .error .SIG_DER
  else do
    if flags.LOW_S then isLowDERSignature crypto vchSig
    if flags.STRICTENC && !isDefinedHashtypeSignature vchSig then throw .SIG_HASHTYPE

/-- `IsCompressedOrUncompressedPubKey`. -/
def isCompressedOrUncompressedPubKey (vchPubKey : List UInt8) : Bool :=
  match vchPubKey with
  | [] => false
  | first :: _ =>
    vchPubKey.length ≥ 33 &&
      if first = 0x04 then vchPubKey.length == 65
      else if first = 0x02 ∨ first = 0x03 then vchPubKey.length == 33
      else false

/-- `IsCompressedPubKey`. -/
def isCompressedPubKey (vchPubKey : List UInt8) : Bool :=
  match vchPubKey with
  | [] => false
  | first :: _ => vchPubKey.length == 33 && (first == 0x02 || first == 0x03)

/-- `CheckPubKeyEncoding`; segwit accepts only compressed keys. -/
def checkPubKeyEncoding (vchPubKey : List UInt8) (flags : VerifyFlags) (sigversion : SigVersion) :
    Except ScriptError Unit :=
  if flags.STRICTENC && !isCompressedOrUncompressedPubKey vchPubKey then .error .PUBKEYTYPE
  else if flags.WITNESS_PUBKEYTYPE && sigversion == .WITNESS_V0 && !isCompressedPubKey vchPubKey then
    .error .WITNESS_PUBKEYTYPE
  else .ok ()

/-! ### `FindAndDelete` -/

/-- The inner `while` of `FindAndDelete`: skips every copy of `b` that starts at `pc`,
back to back. -/
def skipCopies (script b : Script) : Nat → Nat → Nat
  | 0, pc => pc
  | fuel + 1, pc =>
    if b.length ≤ script.length - pc ∧ (script.drop pc).take b.length = b then
      skipCopies script b fuel (pc + b.length)
    else pc

/-- The `do ... while (GetOp(pc, opcode))` loop of `FindAndDelete`: `result` gathers the
bytes between the copies, `pc2` is where the last skip ended; the count is `nFound`. -/
def findAndDeleteLoop (script b : Script) :
    Nat → Nat → Nat → Script → Nat → Script × Nat × Nat
  | 0, _, pc2, result, nFound => (result, pc2, nFound)
  | fuel + 1, pc, pc2, result, nFound =>
    let result := result ++ (script.drop pc2).take (pc - pc2)
    let skipped := skipCopies script b script.length pc
    let nFound := nFound + (skipped - pc) / b.length
    let read := getOp script skipped
    if read.ok then findAndDeleteLoop script b fuel read.pc skipped result nFound
    else (result, skipped, nFound)

/-- `CScript::FindAndDelete(b)`: the script with every op-aligned copy of `b` removed; it
is left as it was when nothing is found. -/
def findAndDelete (script b : Script) : Script :=
  if b = [] then script
  else
    let (result, pc2, nFound) := findAndDeleteLoop script b (script.length + 1) 0 0 [] 0
    if nFound > 0 then result ++ script.drop pc2 else script

/-! ### The opcode switch -/

/-- The state `EvalScript` keeps besides its iterators: the two stacks and `vfExec`, the
open conditionals with the innermost first. -/
structure Stacks where
  stack : Stack
  altstack : Stack
  vfExec : List Bool
deriving DecidableEq, Repr

/-- The inner switch of `OP_1ADD` .. `OP_0NOTEQUAL`. -/
def numericUnary (opcode : UInt8) (bn : Int) : Int :=
  match opcode with
  | OP_1ADD => bn + 1
  | OP_1SUB => bn - 1
  | OP_NEGATE => -bn
  | OP_ABS => if bn < 0 then -bn else bn
  | OP_NOT => if bn = 0 then 1 else 0
  | OP_0NOTEQUAL => if bn ≠ 0 then 1 else 0
  | _ => bn

/-- The inner switch of `OP_ADD` .. `OP_MAX`; comparisons give `1` or `0`. -/
def numericBinary (opcode : UInt8) (bn1 bn2 : Int) : Int :=
  let ofBool (b : Bool) : Int := if b then 1 else 0
  match opcode with
  | OP_ADD => bn1 + bn2
  | OP_SUB => bn1 - bn2
  | OP_BOOLAND => ofBool (bn1 ≠ 0 ∧ bn2 ≠ 0)
  | OP_BOOLOR => ofBool (bn1 ≠ 0 ∨ bn2 ≠ 0)
  | OP_NUMEQUAL => ofBool (bn1 = bn2)
  | OP_NUMEQUALVERIFY => ofBool (bn1 = bn2)
  | OP_NUMNOTEQUAL => ofBool (bn1 ≠ bn2)
  | OP_LESSTHAN => ofBool (bn1 < bn2)
  | OP_GREATERTHAN => ofBool (bn1 > bn2)
  | OP_LESSTHANOREQUAL => ofBool (bn1 ≤ bn2)
  | OP_GREATERTHANOREQUAL => ofBool (bn1 ≥ bn2)
  | OP_MIN => if bn1 < bn2 then bn1 else bn2
  | OP_MAX => if bn1 > bn2 then bn1 else bn2
  | _ => 0

/-- The digest an `OP_RIPEMD160` .. `OP_HASH256` puts in place of the top item. -/
def hashOp (crypto : ScriptCrypto) (opcode : UInt8) (vch : List UInt8) : List UInt8 :=
  match opcode with
  | OP_RIPEMD160 => crypto.ripemd160 vch
  | OP_SHA1 => crypto.sha1 vch
  | OP_SHA256 => crypto.sha256 vch
  | OP_HASH160 => crypto.hash160 vch
  | _ => crypto.hash256 vch

/-- Every case of `EvalScript`'s opcode switch but `OP_CODESEPARATOR`, `OP_CHECKSIG` and
`OP_CHECKMULTISIG`, which also read the script or the op count: the opcodes that read and
write only the stacks and the conditionals. Errors thrown inside (`CScriptNum`) are caught
by `EvalScript` as `UNKNOWN_ERROR`. -/
def execStackOp (env : Env) (opcode : UInt8) (fExec : Bool) (s : Stacks) :
    Except ScriptError Stacks :=
  let fRequireMinimal := env.flags.MINIMALDATA
  let setStack (stack : Stack) : Except ScriptError Stacks := .ok { s with stack := stack }
  if opcode = OP_1NEGATE ∨ (OP_1 ≤ opcode ∧ opcode ≤ OP_16) then
    -- ( -- value)
    setStack (scriptNumSerialize (opcode.toNat - (OP_1.toNat - 1) : Int) :: s.stack)
  else
  match opcode with
  | OP_NOP => .ok s
  | OP_CHECKLOCKTIMEVERIFY =>
    if !env.flags.CHECKLOCKTIMEVERIFY then
      -- not enabled; treat as a NOP2
      if env.flags.DISCOURAGE_UPGRADABLE_NOPS then .error .DISCOURAGE_UPGRADABLE_NOPS else .ok s
    else
      match s.stack with
      | [] => .error .INVALID_STACK_OPERATION
      | top :: _ =>
        -- five-byte operands are allowed here
        match scriptNum top fRequireMinimal 5 with
        | none => .error .UNKNOWN_ERROR
        | some nLockTime =>
          if nLockTime < 0 then .error .NEGATIVE_LOCKTIME
          else if !env.checker.CheckLockTime nLockTime then .error .UNSATISFIED_LOCKTIME
          else .ok s
  | OP_CHECKSEQUENCEVERIFY =>
    if !env.flags.CHECKSEQUENCEVERIFY then
      -- not enabled; treat as a NOP3
      if env.flags.DISCOURAGE_UPGRADABLE_NOPS then .error .DISCOURAGE_UPGRADABLE_NOPS else .ok s
    else
      match s.stack with
      | [] => .error .INVALID_STACK_OPERATION
      | top :: _ =>
        match scriptNum top fRequireMinimal 5 with
        | none => .error .UNKNOWN_ERROR
        | some nSequence =>
          if nSequence < 0 then .error .NEGATIVE_LOCKTIME
          -- the disable flag makes it a NOP
          else if nSequence.toNat &&& SEQUENCE_LOCKTIME_DISABLE_FLAG ≠ 0 then .ok s
          else if !env.checker.CheckSequence nSequence then .error .UNSATISFIED_LOCKTIME
          else .ok s
  | OP_NOP1 | OP_NOP4 | OP_NOP5 | OP_NOP6 | OP_NOP7 | OP_NOP8 | OP_NOP9 | OP_NOP10 =>
    if env.flags.DISCOURAGE_UPGRADABLE_NOPS then .error .DISCOURAGE_UPGRADABLE_NOPS else .ok s
  | OP_IF | OP_NOTIF =>
    if fExec then
      match s.stack with
      | [] => .error .UNBALANCED_CONDITIONAL
      | vch :: rest =>
        if env.sigversion = .WITNESS_V0 ∧ env.flags.MINIMALIF ∧
            (vch.length > 1 ∨ (vch.length = 1 ∧ vch ≠ [1])) then .error .MINIMALIF
        else
          let fValue := if opcode = OP_NOTIF then !castToBool vch else castToBool vch
          .ok { s with stack := rest, vfExec := fValue :: s.vfExec }
    -- inside a branch not taken the conditional is only opened
    else .ok { s with vfExec := false :: s.vfExec }
  | OP_ELSE =>
    match s.vfExec with
    | [] => .error .UNBALANCED_CONDITIONAL
    | innermost :: outer => .ok { s with vfExec := (!innermost) :: outer }
  | OP_ENDIF =>
    match s.vfExec with
    | [] => .error .UNBALANCED_CONDITIONAL
    | _ :: outer => .ok { s with vfExec := outer }
  | OP_VERIFY =>
    match s.stack with
    | [] => .error .INVALID_STACK_OPERATION
    | top :: rest => if castToBool top then setStack rest else .error .VERIFY
  | OP_RETURN => .error .OP_RETURN
  | OP_TOALTSTACK =>
    match s.stack with
    | [] => .error .INVALID_STACK_OPERATION
    | top :: rest => .ok { s with stack := rest, altstack := top :: s.altstack }
  | OP_FROMALTSTACK =>
    match s.altstack with
    | [] => .error .INVALID_ALTSTACK_OPERATION
    | top :: rest => .ok { s with stack := top :: s.stack, altstack := rest }
  | OP_2DROP =>
    match s.stack with
    | _ :: _ :: rest => setStack rest
    | _ => .error .INVALID_STACK_OPERATION
  | OP_2DUP =>
    match s.stack with
    | x2 :: x1 :: rest => setStack (x2 :: x1 :: x2 :: x1 :: rest)
    | _ => .error .INVALID_STACK_OPERATION
  | OP_3DUP =>
    match s.stack with
    | x3 :: x2 :: x1 :: rest => setStack (x3 :: x2 :: x1 :: x3 :: x2 :: x1 :: rest)
    | _ => .error .INVALID_STACK_OPERATION
  | OP_2OVER =>
    match s.stack with
    | x4 :: x3 :: x2 :: x1 :: rest => setStack (x2 :: x1 :: x4 :: x3 :: x2 :: x1 :: rest)
    | _ => .error .INVALID_STACK_OPERATION
  | OP_2ROT =>
    match s.stack with
    | x6 :: x5 :: x4 :: x3 :: x2 :: x1 :: rest => setStack (x2 :: x1 :: x6 :: x5 :: x4 :: x3 :: rest)
    | _ => .error .INVALID_STACK_OPERATION
  | OP_2SWAP =>
    match s.stack with
    | x4 :: x3 :: x2 :: x1 :: rest => setStack (x2 :: x1 :: x4 :: x3 :: rest)
    | _ => .error .INVALID_STACK_OPERATION
  | OP_IFDUP =>
    match s.stack with
    | [] => .error .INVALID_STACK_OPERATION
    | x :: rest => setStack (if castToBool x then x :: x :: rest else x :: rest)
  | OP_DEPTH => setStack (scriptNumSerialize s.stack.length :: s.stack)
  | OP_DROP =>
    match s.stack with
    | [] => .error .INVALID_STACK_OPERATION
    | _ :: rest => setStack rest
  | OP_DUP =>
    match s.stack with
    | [] => .error .INVALID_STACK_OPERATION
    | x :: rest => setStack (x :: x :: rest)
  | OP_NIP =>
    match s.stack with
    | x2 :: _ :: rest => setStack (x2 :: rest)
    | _ => .error .INVALID_STACK_OPERATION
  | OP_OVER =>
    match s.stack with
    | x2 :: x1 :: rest => setStack (x1 :: x2 :: x1 :: rest)
    | _ => .error .INVALID_STACK_OPERATION
  | OP_PICK | OP_ROLL =>
    match s.stack with
    | top :: rest@(_ :: _) =>
      match scriptNum top fRequireMinimal 4 with
      | none => .error .UNKNOWN_ERROR
      | some bn =>
        let n := getint bn
        if n < 0 ∨ n ≥ rest.length then .error .INVALID_STACK_OPERATION
        else
          let vch := rest.getD n.toNat []
          setStack (vch :: if opcode = OP_ROLL then rest.eraseIdx n.toNat else rest)
    | _ => .error .INVALID_STACK_OPERATION
  | OP_ROT =>
    match s.stack with
    | x3 :: x2 :: x1 :: rest => setStack (x1 :: x3 :: x2 :: rest)
    | _ => .error .INVALID_STACK_OPERATION
  | OP_SWAP =>
    match s.stack with
    | x2 :: x1 :: rest => setStack (x1 :: x2 :: rest)
    | _ => .error .INVALID_STACK_OPERATION
  | OP_TUCK =>
    match s.stack with
    | x2 :: x1 :: rest => setStack (x2 :: x1 :: x2 :: rest)
    | _ => .error .INVALID_STACK_OPERATION
  | OP_SIZE =>
    match s.stack with
    | [] => .error .INVALID_STACK_OPERATION
    | x :: rest => setStack (scriptNumSerialize x.length :: x :: rest)
  | OP_EQUAL | OP_EQUALVERIFY =>
    match s.stack with
    | x2 :: x1 :: rest =>
      let fEqual := x1 == x2
      if opcode = OP_EQUALVERIFY then
        if fEqual then setStack rest else .error .EQUALVERIFY
      else setStack ((if fEqual then vchTrue else vchFalse) :: rest)
    | _ => .error .INVALID_STACK_OPERATION
  | OP_1ADD | OP_1SUB | OP_NEGATE | OP_ABS | OP_NOT | OP_0NOTEQUAL =>
    match s.stack with
    | [] => .error .INVALID_STACK_OPERATION
    | x :: rest =>
      match scriptNum x fRequireMinimal 4 with
      | none => .error .UNKNOWN_ERROR
      | some bn => setStack (scriptNumSerialize (numericUnary opcode bn) :: rest)
  | OP_ADD | OP_SUB | OP_BOOLAND | OP_BOOLOR | OP_NUMEQUAL | OP_NUMEQUALVERIFY | OP_NUMNOTEQUAL
  | OP_LESSTHAN | OP_GREATERTHAN | OP_LESSTHANOREQUAL | OP_GREATERTHANOREQUAL | OP_MIN | OP_MAX =>
    match s.stack with
    | x2 :: x1 :: rest =>
      match scriptNum x1 fRequireMinimal 4, scriptNum x2 fRequireMinimal 4 with
      | some bn1, some bn2 =>
        let result := scriptNumSerialize (numericBinary opcode bn1 bn2)
        if opcode = OP_NUMEQUALVERIFY then
          if castToBool result then setStack rest else .error .NUMEQUALVERIFY
        else setStack (result :: rest)
      | _, _ => .error .UNKNOWN_ERROR
    | _ => .error .INVALID_STACK_OPERATION
  | OP_WITHIN =>
    match s.stack with
    | x3 :: x2 :: x1 :: rest =>
      match scriptNum x1 fRequireMinimal 4, scriptNum x2 fRequireMinimal 4,
          scriptNum x3 fRequireMinimal 4 with
      | some bn1, some bn2, some bn3 =>
        setStack ((if bn2 ≤ bn1 ∧ bn1 < bn3 then vchTrue else vchFalse) :: rest)
      | _, _, _ => .error .UNKNOWN_ERROR
    | _ => .error .INVALID_STACK_OPERATION
  | OP_RIPEMD160 | OP_SHA1 | OP_SHA256 | OP_HASH160 | OP_HASH256 =>
    match s.stack with
    | [] => .error .INVALID_STACK_OPERATION
    | x :: rest => setStack (hashOp env.crypto opcode x :: rest)
  | _ => .error .BAD_OPCODE

/-- `OP_CHECKSIG` and `OP_CHECKSIGVERIFY` on the stack, with the script code from the last
`OP_CODESEPARATOR`; before segwit the signature is first deleted from it. -/
def opCheckSig (env : Env) (scriptCode : Script) (opcode : UInt8) (stack : Stack) :
    Except ScriptError Stack :=
  match stack with
  | vchPubKey :: vchSig :: rest => do
    let scriptCode :=
      if env.sigversion = .BASE then findAndDelete scriptCode (pushData vchSig) else scriptCode
    checkSignatureEncoding env.crypto vchSig env.flags
    checkPubKeyEncoding vchPubKey env.flags env.sigversion
    let fSuccess := env.checker.CheckSig vchSig vchPubKey scriptCode env.sigversion
    if !fSuccess && env.flags.NULLFAIL && vchSig != [] then throw .SIG_NULLFAIL
    if opcode = OP_CHECKSIGVERIFY then
      if fSuccess then pure rest else throw .CHECKSIGVERIFY
    else pure ((if fSuccess then vchTrue else vchFalse) :: rest)
  | _ => .error .INVALID_STACK_OPERATION

/-- The `while (fSuccess && nSigsCount > 0)` loop of `CHECKMULTISIG`: each signature, from
the top down, is tried against the keys in order; a key that fails it is skipped, and the
loop gives up once fewer keys than signatures are left. It is entered with no more
signatures than keys, which it keeps, so the case of signatures without keys is never
reached. -/
def checkMultiSigLoop (env : Env) (scriptCode : Script) :
    List (List UInt8) → List (List UInt8) → Except ScriptError Bool
  | [], _ => .ok true
  | _ :: _, [] => .ok false
  | vchSig :: sigs, vchPubKey :: keys => do
    checkSignatureEncoding env.crypto vchSig env.flags
    checkPubKeyEncoding vchPubKey env.flags env.sigversion
    let fOk := env.checker.CheckSig vchSig vchPubKey scriptCode env.sigversion
    let sigs := if fOk then sigs else vchSig :: sigs
    if sigs.length > keys.length then pure false
    else checkMultiSigLoop env scriptCode sigs keys

/-- The `while (i-- > 1)` clean-up of `CHECKMULTISIG`: pops `count` items; once the first
`ikey2` (the key count, the keys and the signature count) are gone, a failed check with
`NULLFAIL` requires each popped signature to be empty. -/
def popArguments (nullFail : Bool) : Nat → Nat → Stack → Except ScriptError Stack
  | 0, _, stack => .ok stack
  | count + 1, ikey2, stack =>
    match stack with
    | [] => .error .UNKNOWN_ERROR
    | top :: rest =>
      if nullFail && ikey2 == 0 && top != [] then .error .SIG_NULLFAIL
      else popArguments nullFail count (ikey2 - 1) rest

/-- The start of `CHECKMULTISIG`: the key count on top of the stack. -/
def multiSigKeysCount (env : Env) (stack : Stack) : Except ScriptError Nat :=
  match stack with
  | [] => .error .INVALID_STACK_OPERATION
  | top :: _ =>
    match scriptNum top env.flags.MINIMALDATA 4 with
    | none => .error .UNKNOWN_ERROR
    | some bn =>
      let nKeysCount := getint bn
      if nKeysCount < 0 ∨ nKeysCount > MAX_PUBKEYS_PER_MULTISIG then .error .PUBKEY_COUNT
      else .ok nKeysCount.toNat

/-- The rest of `CHECKMULTISIG`, once the keys are counted against the op limit: the
signature count, the signature loop, the clean-up, the extra dummy argument, and the
result. -/
def multiSigRest (env : Env) (scriptCode : Script) (opcode : UInt8) (nKeysCount : Nat)
    (stack : Stack) : Except ScriptError Stack := do
  -- `i` counts the items taken so far, the key count included
  let i := 2 + nKeysCount
  if stack.length < i then throw .INVALID_STACK_OPERATION
  let some bn := scriptNum (stack.getD (i - 1) []) env.flags.MINIMALDATA 4
    | throw .UNKNOWN_ERROR
  let nSigsCount := getint bn
  if nSigsCount < 0 ∨ nSigsCount > nKeysCount then throw .SIG_COUNT
  let isig := i + 1
  let i := isig + nSigsCount.toNat
  if stack.length < i then throw .INVALID_STACK_OPERATION
  let keys := (stack.drop 1).take nKeysCount
  let sigs := (stack.drop (isig - 1)).take nSigsCount.toNat
  -- the signatures are deleted from the script code before segwit
  let scriptCode :=
    if env.sigversion = .BASE then
      sigs.foldl (fun code vchSig => findAndDelete code (pushData vchSig)) scriptCode
    else scriptCode
  let fSuccess ← checkMultiSigLoop env scriptCode sigs keys
  let stack ← popArguments (!fSuccess && env.flags.NULLFAIL) (i - 1) (nKeysCount + 2) stack
  -- the extra argument a bug makes it consume
  match stack with
  | [] => throw .INVALID_STACK_OPERATION
  | dummy :: rest =>
    if env.flags.NULLDUMMY && dummy != [] then throw .SIG_NULLDUMMY
    if opcode = OP_CHECKMULTISIGVERIFY then
      if fSuccess then pure rest else throw .CHECKMULTISIGVERIFY
    else pure ((if fSuccess then vchTrue else vchFalse) :: rest)

/-- `OP_CHECKMULTISIG` and `OP_CHECKMULTISIGVERIFY`: the keys count against the op limit. -/
def opCheckMultiSig (env : Env) (scriptCode : Script) (opcode : UInt8) (nOpCount : Nat)
    (stack : Stack) : Except ScriptError (Stack × Nat) := do
  let nKeysCount ← multiSigKeysCount env stack
  let nOpCount := nOpCount + nKeysCount
  if nOpCount > MAX_OPS_PER_SCRIPT then throw .OP_COUNT
  let stack ← multiSigRest env scriptCode opcode nKeysCount stack
  pure (stack, nOpCount)

/-- Everything `EvalScript` keeps between two rounds of its loop. -/
structure Machine where
  «stacks» : Stacks
  nOpCount : Nat
  pbegincodehash : Nat
deriving DecidableEq, Repr

/-- The opcode switch of `EvalScript`, for an opcode that is executed or is a conditional;
`pc` is the iterator after the opcode. -/
def execOp (env : Env) (script : Script) (pc : Nat) (opcode : UInt8) (fExec : Bool)
    (m : Machine) : Except ScriptError Machine :=
  match opcode with
  | OP_CODESEPARATOR => .ok { m with pbegincodehash := pc }
  | OP_CHECKSIG | OP_CHECKSIGVERIFY => do
    let stack ← opCheckSig env (script.drop m.pbegincodehash) opcode m.stacks.stack
    pure { m with «stacks» := { m.stacks with stack := stack } }
  | OP_CHECKMULTISIG | OP_CHECKMULTISIGVERIFY => do
    let (stack, nOpCount) ←
      opCheckMultiSig env (script.drop m.pbegincodehash) opcode m.nOpCount m.stacks.stack
    pure { m with «stacks» := { m.stacks with stack := stack }, nOpCount := nOpCount }
  | _ => do
    let «stacks» ← execStackOp env opcode fExec m.stacks
    pure { m with «stacks» := «stacks» }

/-! ### `EvalScript` -/

/-- The opcodes `EvalScript` refuses even in a branch not taken. -/
def isDisabledOpcode (opcode : UInt8) : Bool :=
  [OP_CAT, OP_SUBSTR, OP_LEFT, OP_RIGHT, OP_INVERT, OP_AND, OP_OR, OP_XOR, OP_2MUL, OP_2DIV,
    OP_MUL, OP_DIV, OP_MOD, OP_LSHIFT, OP_RSHIFT].contains opcode

/-- What a round does with an instruction once it is read and counted: an executed push
puts its data on the stack, an executed opcode or a conditional runs through the switch,
anything else is skipped. -/
def dispatchInstruction (env : Env) (script : Script) (read : GetOpResult) (m : Machine) :
    Except ScriptError Machine :=
  let fExec := m.stacks.vfExec.all id
  if fExec ∧ read.opcode ≤ OP_PUSHDATA4 then
    if env.flags.MINIMALDATA ∧ !checkMinimalPush read.data read.opcode then .error .MINIMALDATA
    else .ok { m with «stacks» := { m.stacks with stack := read.data :: m.stacks.stack } }
  else if fExec ∨ (OP_IF ≤ read.opcode ∧ read.opcode ≤ OP_ENDIF) then
    execOp env script read.pc read.opcode fExec m
  else .ok m

/-- A round once the instruction is read and counted: dispatch it, then the stacks must
stay within 1000 items. -/
def runInstruction (env : Env) (script : Script) (read : GetOpResult) (m : Machine) :
    Except ScriptError Machine := do
  let m ← dispatchInstruction env script read m
  if m.stacks.stack.length + m.stacks.altstack.length > 1000 then throw .STACK_SIZE
  pure m

/-- One round of `EvalScript`'s loop at `pc`: read the instruction, check the push size,
the op count and the disabled opcodes, then run it. It returns the iterator after the
instruction. -/
def evalStep (env : Env) (script : Script) (pc : Nat) (m : Machine) :
    Except ScriptError (Nat × Machine) :=
  let read := getOp script pc
  if !read.ok then .error .BAD_OPCODE
  else if read.data.length > MAX_SCRIPT_ELEMENT_SIZE then .error .PUSH_SIZE
  -- `OP_RESERVED` and the small integers do not count towards the limit
  else if read.opcode > OP_16 ∧ m.nOpCount + 1 > MAX_OPS_PER_SCRIPT then .error .OP_COUNT
  else if isDisabledOpcode read.opcode then .error .DISABLED_OPCODE
  else
    let counted := { m with nOpCount := if read.opcode > OP_16 then m.nOpCount + 1 else m.nOpCount }
    (runInstruction env script read counted).map fun m => (read.pc, m)

/-- `while (pc < pend)`, with `fuel` rounds. -/
def evalLoop (env : Env) (script : Script) : Nat → Nat → Machine → Except ScriptError Machine
  | 0, _, m => .ok m
  | fuel + 1, pc, m =>
    if pc < script.length then do
      let (pc, m) ← evalStep env script pc m
      evalLoop env script fuel pc m
    else .ok m

/-- `EvalScript(stack, script, flags, checker, sigversion)`: the stack it leaves, or the
error it sets. -/
def evalScript (crypto : ScriptCrypto) (stack : Stack) (script : Script) (flags : VerifyFlags)
    (checker : SignatureChecker) (sigversion : SigVersion) : Except ScriptError Stack :=
  if script.length > MAX_SCRIPT_SIZE then .error .SCRIPT_SIZE
  else do
    let m ← evalLoop ⟨crypto, flags, checker, sigversion⟩ script script.length 0
      ⟨⟨stack, [], []⟩, 0, 0⟩
    if m.stacks.vfExec ≠ [] then throw .UNBALANCED_CONDITIONAL
    pure m.stacks.stack

/-! ### The loop

One round inverted once, and the fuel that `evalScript` gives is enough. -/

section
variable {env : Env}

/-- A round succeeds exactly when `GetOp` reads an instruction, the push is within
`MAX_SCRIPT_ELEMENT_SIZE`, the op count stays within `MAX_OPS_PER_SCRIPT`, the opcode is
not disabled and the instruction runs. -/
theorem evalStep_eq_ok {script : Script} {pc pc' : Nat} {m m' : Machine} :
    evalStep env script pc m = .ok (pc', m') ↔
      (getOp script pc).ok = true ∧
      (getOp script pc).data.length ≤ MAX_SCRIPT_ELEMENT_SIZE ∧
      ¬ ((getOp script pc).opcode > OP_16 ∧ m.nOpCount + 1 > MAX_OPS_PER_SCRIPT) ∧
      isDisabledOpcode (getOp script pc).opcode = false ∧
      pc' = (getOp script pc).pc ∧
      runInstruction env script (getOp script pc)
        { m with nOpCount :=
            if (getOp script pc).opcode > OP_16 then m.nOpCount + 1 else m.nOpCount } = .ok m' := by
  unfold evalStep
  generalize getOp script pc = read
  cases ok : read.ok
  · simp [ok]
  by_cases long : read.data.length > MAX_SCRIPT_ELEMENT_SIZE
  · have : ¬ read.data.length ≤ MAX_SCRIPT_ELEMENT_SIZE := by omega
    simp [ok, long, this]
  by_cases counted : read.opcode > OP_16 ∧ m.nOpCount + 1 > MAX_OPS_PER_SCRIPT
  · simp [ok, long, counted]
  cases enabled : isDisabledOpcode read.opcode
  · have short : read.data.length ≤ MAX_SCRIPT_ELEMENT_SIZE := by omega
    simp only [ok, long, counted, short, enabled, Bool.not_true, if_false, Bool.false_eq_true,
      not_false_eq_true, true_and]
    cases runInstruction env script read _ with
    | error e => simp [Except.map]
    | ok v =>
      simp only [Except.map, Except.ok.injEq, Prod.mk.injEq]
      constructor <;> rintro ⟨rfl, rfl⟩ <;> exact ⟨rfl, rfl⟩
  · simp only [ok, Bool.not_true, Bool.false_eq_true, ↓reduceIte, gt_iff_lt, long, counted, enabled,
      reduceCtorEq, not_false_eq_true, Bool.true_eq_false, false_and, and_false]

/-- A round that succeeds moves past at least one byte. -/
theorem evalStep_pc_gt {script : Script} {pc pc' : Nat} {m m' : Machine}
    (stepped : evalStep env script pc m = .ok (pc', m')) : pc < pc' := by
  obtain ⟨ok, -, -, -, rfl, -⟩ := evalStep_eq_ok.mp stepped
  exact getOp_pc_gt ok

/-- The loop with fuel left: one round at `pc` unless the script is over. -/
theorem evalLoop_succ_eq {script : Script} {fuel pc : Nat} {m : Machine} :
    evalLoop env script (fuel + 1) pc m =
      if pc < script.length then
        evalStep env script pc m >>= fun r => evalLoop env script fuel r.1 r.2
      else .ok m := rfl

/-- A run with fuel left succeeds when the script is over, or when a round succeeds and
the run goes on from it. -/
theorem evalLoop_succ_ok {script : Script} {fuel pc : Nat} {m m' : Machine} :
    evalLoop env script (fuel + 1) pc m = .ok m' ↔
      (script.length ≤ pc ∧ m' = m) ∨
      (pc < script.length ∧ ∃ pc₁ m₁, evalStep env script pc m = .ok (pc₁, m₁) ∧
        evalLoop env script fuel pc₁ m₁ = .ok m') := by
  rw [evalLoop_succ_eq]
  by_cases inside : pc < script.length
  · have notOver : ¬ script.length ≤ pc := by omega
    simp [inside, notOver]
  · simp only [inside, if_false, Except.ok.injEq, false_and, or_false]
    constructor
    · rintro rfl
      exact ⟨by omega, rfl⟩
    · rintro ⟨-, rfl⟩
      rfl

/-- Fuel beyond the bytes left changes nothing: every round reads at least one byte. -/
theorem evalLoop_succ {script : Script} :
    ∀ {fuel pc : Nat} {m : Machine}, script.length - pc ≤ fuel →
      evalLoop env script (fuel + 1) pc m = evalLoop env script fuel pc m
  | 0, pc, m, enough => by
    have ended : ¬ pc < script.length := by omega
    simp [ended, evalLoop]
  | fuel + 1, pc, m, enough => by
    rw [evalLoop_succ_eq, evalLoop_succ_eq]
    by_cases inside : pc < script.length
    · simp only [inside, if_true]
      cases stepped : evalStep env script pc m with
      | error e => rfl
      | ok r =>
        have further := evalStep_pc_gt stepped
        exact evalLoop_succ (by omega)
    · simp only [inside, if_false]

/-- `EvalScript`'s fuel is enough: any fuel that covers the bytes left gives the run that
`script.length - pc` rounds give. -/
theorem evalLoop_fuel {script : Script} {fuel pc : Nat} {m : Machine}
    (enough : script.length - pc ≤ fuel) :
    evalLoop env script fuel pc m = evalLoop env script (script.length - pc) pc m := by
  obtain ⟨extra, rfl⟩ := Nat.exists_eq_add_of_le enough
  induction extra with
  | zero => rfl
  | succ extra ih =>
    rw [← Nat.add_assoc, evalLoop_succ (by omega), ih (by omega)]

end

end MFCoin.Script
