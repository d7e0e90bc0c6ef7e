/-
Module: MFCoin.Script.NameScript
Purpose: The name prefix of output scripts (src/src/script/script.cpp): `checkNameValues`,
  `DecodeNameScript` with its value and delimiter loops and its iterator arithmetic,
  `RemoveNameScriptPrefix`, and the `nVersion`-dependent template tests
  `IsPayToScriptHash` and `IsWitnessProgram` that strip a name prefix for name
  transactions only.
Trusted boundary: none
Main exports: NameOp, NameScriptInfo, NameScriptError, checkNameValues, decodeNameScript,
  removeNameScriptPrefix, createNameScript, isPayToScriptHash, isWitnessProgram
-/
import MFCoin.Script.Core

namespace MFCoin.Script

/-- `NAMECOIN_TX_VERSION`. -/
def NAMECOIN_TX_VERSION : Int := 0x0666

def MAX_NAME_LENGTH : Nat := 512
def MAX_VALUE_LENGTH : Nat := 20 * 1024
def MAX_RENTAL_DAYS : Int := 366000000

/-- The three name operations, `OP_NAME_NEW = 1`, `OP_NAME_UPDATE = 2`,
`OP_NAME_DELETE = 3`. -/
inductive NameOp where
  | new
  | update
  | delete
deriving DecidableEq, Repr

/-- The operation an `OP_1 .. OP_16` opcode names, if it names one. -/
def NameOp.ofCode : Nat → Option NameOp
  | 1 => some .new
  | 2 => some .update
  | 3 => some .delete
  | _ => none

/-- The `OP_NAME_*` value of an operation. -/
def NameOp.code : NameOp → Nat
  | .new => 1
  | .update => 2
  | .delete => 3

/-- The fields `DecodeNameScript` fills in a fresh `NameTxInfo`. A `name_delete` carries
no rental days, so it keeps the constructor's `-1`. -/
structure NameScriptInfo where
  op : NameOp
  name : List UInt8
  value : List UInt8
  nRentalDays : Int
deriving DecidableEq, Repr

/-- How `DecodeNameScript` ends without a name: `false` with the last `err_msg`, or the
`scriptnum_error` that `CScriptNum` throws on a rental-days push of more than 4 bytes. -/
inductive NameScriptError where
  | rejected (errMsg : String)
  | scriptNum (error : ScriptNumError)
deriving DecidableEq, Repr

/-- `checkNameValues`: the concatenated complaints, empty when the values are accepted. -/
def checkNameValues (info : NameScriptInfo) : String :=
  (if info.name.length > MAX_NAME_LENGTH then "name is too long.\n" else "") ++
  (if info.value.length > MAX_VALUE_LENGTH then "value is too long.\n" else "") ++
  (if info.op = .new ∧ info.nRentalDays < 1 then
    "rental days must be greater than 0.\n" else "") ++
  (if info.op = .update ∧ info.nRentalDays < 0 then
    "rental days must be greater or equal 0.\n" else "") ++
  (if info.nRentalDays > MAX_RENTAL_DAYS then "rental days value is too large.\n" else "")

/-- One `GetOp` that must succeed; on failure `DecodeNameScript` returns `false` with the
message currently in `err_msg`. -/
def readOp (script : Script) (pc : Nat) (errMsg : String) :
    Except NameScriptError GetOpResult :=
  let read := getOp script pc
  if read.ok then .ok read else .error (.rejected errMsg)

/-- The `for (;;)` value loop: pushes are appended to the value until a `OP_DROP` or
`OP_2DROP`; any other opcode, or a failed read, rejects the script. The result is the
value, the number of pushes, and the iterator just past the delimiter. Every round
consumes a byte, so `fuel = script.length` is never exhausted. -/
def readValue (script : Script) : Nat → Nat → List UInt8 → Nat →
    Except NameScriptError (List UInt8 × Nat × Nat)
  | 0, _, _, _ => .error (.rejected "failed to read value")
  | fuel + 1, pc, value, valueSize => do
    let read ← readOp script pc "failed to read value"
    if read.opcode = OP_DROP ∨ read.opcode = OP_2DROP then
      return (value, valueSize, read.pc)
    else if ¬ read.opcode ≤ OP_PUSHDATA4 then
      throw (.rejected "failed to read value")
    else readValue script fuel read.pc (value ++ read.data) (valueSize + 1)

/-- The `while (opcode == OP_DROP || opcode == OP_2DROP)` delimiter loop, entered at the
first delimiter: counts `OP_DROP` as 1 and `OP_2DROP` as 2, and stops after the first
other opcode or failed read, returning the count and the iterator where `GetOp` left
it. -/
def readDelimiters (script : Script) : Nat → Nat → Nat → Nat × Nat
  | 0, pc, delimiterSize => (delimiterSize, pc)
  | fuel + 1, pc, delimiterSize =>
    let read := getOp script pc
    if !read.ok then (delimiterSize, read.pc)
    else
      let counted :=
        if read.opcode = OP_2DROP then delimiterSize + 2
        else if read.opcode = OP_DROP then delimiterSize + 1
        else delimiterSize
      if read.opcode = OP_DROP ∨ read.opcode = OP_2DROP then
        readDelimiters script fuel read.pc counted
      else (counted, read.pc)

/-- `DecodeNameScript(script, ret, pc)`: the decoded name fields and the iterator past
the prefix. The two `pc--` steps move the iterator back by one byte, not one opcode. -/
def decodeNameScript (script : Script) (pc : Nat) :
    Except NameScriptError (NameScriptInfo × Nat) := do
  -- read op
  let opRead ← readOp script pc "failed to read op"
  if opRead.opcode < OP_1 ∨ opRead.opcode > OP_16 then throw (.rejected "failed to read op")
  let some op := NameOp.ofCode (opRead.opcode.toNat - OP_1.toNat + 1)
    | throw (.rejected "failed to read op")
  let dropRead ← readOp script opRead.pc "failed to read OP_DROP after op_type"
  if dropRead.opcode ≠ OP_DROP then throw (.rejected "failed to read OP_DROP after op_type")
  -- read name
  let nameRead ← readOp script dropRead.pc "failed to read name"
  if (nameRead.opcode = OP_DROP ∨ nameRead.opcode = OP_2DROP) ∨
      ¬ nameRead.opcode ≤ OP_PUSHDATA4 then
    throw (.rejected "failed to read name")
  -- a name_delete ends with one OP_DROP after the name
  if op = .delete then
    let endRead ← readOp script nameRead.pc "failed to read OP2_DROP in name_delete"
    if endRead.opcode ≠ OP_DROP then throw (.rejected "failed to read OP2_DROP in name_delete")
    return (⟨op, nameRead.data, [], -1⟩, endRead.pc)
  -- read rental days
  let daysRead ← readOp script nameRead.pc "failed to read rental days"
  if (daysRead.opcode = OP_DROP ∨ daysRead.opcode = OP_2DROP) ∨
      ¬ daysRead.opcode ≤ OP_PUSHDATA4 then
    throw (.rejected "failed to read rental days")
  let nRentalDays ← (scriptNumDecode daysRead.data).mapError .scriptNum
  let delimiterMsg := "failed to read delimeter d in: name << rental << d << value"
  let delimiterRead ← readOp script daysRead.pc delimiterMsg
  if delimiterRead.opcode ≠ OP_2DROP then throw (.rejected delimiterMsg)
  -- read value, then step back onto the delimiter that ended it
  let (value, valueSize, afterValue) ←
    readValue script script.length delimiterRead.pc [] 0
  let (delimiterSize, afterDelimiters) :=
    readDelimiters script script.length (afterValue - 1) 0
  if valueSize ≠ delimiterSize then
    throw (.rejected "failed to read correct number of DROP operations after value")
  let info : NameScriptInfo := ⟨op, nameRead.data, value, nRentalDays⟩
  let complaints := checkNameValues info
  if complaints ≠ "" then throw (.rejected complaints)
  return (info, afterDelimiters - 1)

/-- `RemoveNameScriptPrefix`: the script after a decoded name prefix. -/
def removeNameScriptPrefix (script : Script) : Except NameScriptError Script := do
  let (_, pc) ← decodeNameScript script 0
  return script.drop pc

/-- `createNameScript(nameScript, name, value, nRentalDays, op, err_msg)` (namecoin.cpp): the
prefix a wallet puts in front of the destination, or the complaints of `checkNameValues`.
The value goes in pushes of at most 520 bytes, followed by one drop per push. -/
def createNameScript (name value : List UInt8) (nRentalDays : Int) (op : NameOp) :
    Except String Script :=
  -- `nameScript << op` pushes the small integer `op` as the opcode `OP_1 - 1 + op`
  let opcode : UInt8 := (OP_1.toNat - 1 + op.code).toUInt8
  if op = .delete then .ok ([opcode, OP_DROP] ++ pushData name ++ [OP_DROP])
  else
    let complaints := checkNameValues ⟨op, name, value, nRentalDays⟩
    if complaints ≠ "" then .error complaints
    else
      -- `ceil(value.size() / 520.0)`, exact in double for values up to `MAX_VALUE_LENGTH`
      let nChunks := (value.length + 519) / 520
      let chunks := (List.range nChunks).map fun i => (value.drop (i * 520)).take 520
      let endMarkers :=
        List.replicate (nChunks / 2) OP_2DROP ++ (if nChunks % 2 ≠ 0 then [OP_DROP] else [])
      .ok ([opcode, OP_DROP] ++ pushData name ++ pushData (scriptNumSerialize nRentalDays) ++
        [OP_2DROP] ++ (chunks.map pushData).flatten ++ endMarkers)

/-- `IsPayToScriptHashInner`: `OP_HASH160 <20 bytes> OP_EQUAL`. -/
def isPayToScriptHashInner (script : Script) : Bool :=
  script.length == 23 && script[0]? == some OP_HASH160 && script[1]? == some 0x14 &&
    script[22]? == some OP_EQUAL

/-- `CScript::IsPayToScriptHash(nVersion)`: a name transaction also tries the script with
its name prefix removed; a prefix that fails to decode makes the answer `false`. -/
def isPayToScriptHash (script : Script) (nVersion : Int) : Except NameScriptError Bool :=
  if isPayToScriptHashInner script then .ok true
  else if nVersion = NAMECOIN_TX_VERSION then
    match removeNameScriptPrefix script with
    | .ok remainder => .ok (isPayToScriptHashInner remainder)
    | .error (.rejected _) => .ok false
    | .error (.scriptNum e) => .error (.scriptNum e)
  else .ok false

/-- `IsWitnessProgramInner`: a version opcode `OP_0` or `OP_1 .. OP_16` and one push of
the rest, 4 to 42 bytes in all. Returns the version and the program. -/
def isWitnessProgramInner (script : Script) : Option (Nat × List UInt8) :=
  match script with
  | versionOp :: size :: program =>
    if script.length < 4 ∨ script.length > 42 then none
    else if versionOp ≠ OP_0 ∧ (versionOp < OP_1 ∨ versionOp > OP_16) then none
    else if size.toNat + 2 = script.length then
      some (if versionOp = OP_0 then 0 else versionOp.toNat - (OP_1.toNat - 1), program)
    else none
  | _ => none

/-- `CScript::IsWitnessProgram(version, program, txVersion)`. -/
def isWitnessProgram (script : Script) (txVersion : Int) :
    Except NameScriptError (Option (Nat × List UInt8)) :=
  match isWitnessProgramInner script with
  | some found => .ok (some found)
  | none =>
    if txVersion = NAMECOIN_TX_VERSION then
      match removeNameScriptPrefix script with
      | .ok remainder => .ok (isWitnessProgramInner remainder)
      | .error (.rejected _) => .ok none
      | .error (.scriptNum e) => .error (.scriptNum e)
    else .ok none

end MFCoin.Script
