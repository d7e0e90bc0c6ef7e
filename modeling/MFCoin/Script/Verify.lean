/-
Module: MFCoin.Script.Verify
Purpose: `VerifyScript` and `VerifyWitnessProgram` (src/src/script/interpreter.cpp) with
  `CScript::IsPushOnly`: the scriptSig run, the scriptPubKey run on its stack, the bare
  witness program, the pay-to-script-hash run of the redeem script and its nested witness
  program, and the `CLEANSTACK` and unexpected-witness checks. The template tests are the
  `nVersion`-dependent ones of `MFCoin.Script.NameScript`: a name transaction strips a
  name prefix before it looks for a script hash or a witness program, any other
  transaction does not. Over it: a name prefix in front of a destination keeps the
  destination's spending condition when both runs see the same templates
  (`verifyScript_namePrefix`), and not otherwise: a spender that is not a name transaction
  meets neither a script hash nor a witness program behind a name prefix
  (`verifyScript_plainSpenderSkipsTemplates`); a name-like prefix whose rental days take five bytes makes `VerifyScript` throw
  (`verifyScript_rentalDaysOverflow`).
Trusted boundary: the hash functions and the signature checker, as in
  `MFCoin.Script.Interpreter`; the C++ asserts are the error `assertion`.
Main exports: isPushOnly, verifyWitnessProgram, VerifyError, verifyTemplates, verifyScript,
  verifyScript_of_runs, NamePrefix, createNameScript_namePrefix, verifyScript_namePrefix,
  verifyScript_witnessBehindPrefix, verifyScript_plainSpenderSkipsTemplates,
  verifyScript_rentalDaysOverflow
-/
import MFCoin.Script.NameRoundTrip

namespace MFCoin.Script

open MFCoin.CoinsView (MAX_SCRIPT_SIZE)

/-! ### `VerifyScript` -/

/-- The `while (pc < end())` loop of `CScript::IsPushOnly`: every instruction reads and is
at most `OP_16`. -/
def isPushOnlyLoop (script : Script) : Nat → Nat → Bool
  | 0, _ => true
  | fuel + 1, pc =>
    if pc < script.length then
      let read := getOp script pc
      if !read.ok then false
      else if read.opcode > OP_16 then false
      else isPushOnlyLoop script fuel read.pc
    else true

/-- `CScript::IsPushOnly()`; every round reads a byte, so `script.length` rounds are
enough. -/
def isPushOnly (script : Script) : Bool :=
  isPushOnlyLoop script script.length 0

/-- `stack.resize(1)` on a non-empty stack: the bottom item stays, which is the last item
of a stack written top first. -/
def resizeOne (stack : Stack) : Stack :=
  stack.drop (stack.length - 1)

/-- `VerifyWitnessProgram`. The witness is `CScriptWitness::stack` in its own order, the
last item on top; `EvalScript` is handed it top first. -/
def verifyWitnessProgram (crypto : ScriptCrypto) (witness : List (List UInt8))
    (witversion : Nat) (program : List UInt8) (flags : VerifyFlags)
    (checker : SignatureChecker) : Except ScriptError Unit := do
  let (scriptPubKey, stack) ←
    if witversion = 0 then
      if program.length = 32 then
        -- the script is the witness's last item, the rest its stack
        match witness.getLast? with
        | none => throw .WITNESS_PROGRAM_WITNESS_EMPTY
        | some scriptPubKey =>
          if crypto.sha256 scriptPubKey ≠ program then throw .WITNESS_PROGRAM_MISMATCH
          pure (scriptPubKey, witness.dropLast)
      else if program.length = 20 then
        if witness.length ≠ 2 then throw .WITNESS_PROGRAM_MISMATCH
        pure ([OP_DUP, OP_HASH160] ++ pushData program ++ [OP_EQUALVERIFY, OP_CHECKSIG],
          witness)
      else throw .WITNESS_PROGRAM_WRONG_LENGTH
    else if flags.DISCOURAGE_UPGRADABLE_WITNESS_PROGRAM then
      throw .DISCOURAGE_UPGRADABLE_WITNESS_PROGRAM
    -- higher versions succeed, for future soft forks
    else return
  if stack.any fun item => item.length > MAX_SCRIPT_ELEMENT_SIZE then throw .PUSH_SIZE
  let stack ← evalScript crypto stack.reverse scriptPubKey flags checker .WITNESS_V0
  -- scripts inside a witness require a clean stack
  match stack with
  | [top] => if !castToBool top then throw .EVAL_FALSE
  | _ => throw .EVAL_FALSE

/-- How `VerifyScript` fails: with a script error, with the `scriptnum_error` that the
name-prefix decoding in `IsPayToScriptHash` or `IsWitnessProgram` throws, or at one of its
`assert`s. -/
inductive VerifyError where
  | script (error : ScriptError)
  | scriptNum (error : ScriptNumError)
  | assertion
deriving DecidableEq, Repr

/-- The error of a template test in `VerifyScript`. `isPayToScriptHash` and
`isWitnessProgram` answer `false` on a rejected name prefix themselves, so only the
`scriptnum_error` reaches here. -/
def VerifyError.ofNameScript : NameScriptError → VerifyError
  | .rejected _ => .script .UNKNOWN_ERROR
  | .scriptNum e => .scriptNum e

/-- The second half of `VerifyScript`, from the scriptPubKey's result on: the bare witness
program, the pay-to-script-hash run of the redeem script with its nested witness program,
and the `CLEANSTACK` and unexpected-witness checks. `stackCopy` is the stack the scriptSig
left, saved when `P2SH` is on. -/
def verifyTemplates (crypto : ScriptCrypto) (scriptSig scriptPubKey : Script) (nVersion : Int)
    (witness : List (List UInt8)) (flags : VerifyFlags) (checker : SignatureChecker)
    (stackCopy stack : Stack) : Except VerifyError Unit := do
  match stack with
  | [] => throw (.script .EVAL_FALSE)
  | top :: _ => if !castToBool top then throw (.script .EVAL_FALSE)
  -- bare witness programs
  let (hadWitness, stack) ←
    if flags.WITNESS then do
      match ← (isWitnessProgram scriptPubKey nVersion).mapError VerifyError.ofNameScript with
      | some (witversion, program) =>
        if scriptSig ≠ [] then throw (.script .WITNESS_MALLEATED)
        (verifyWitnessProgram crypto witness witversion program flags checker).mapError .script
        pure (true, resizeOne stack)
      | none => pure (false, stack)
    else pure (false, stack)
  let fIsP2SH ← (isPayToScriptHash scriptPubKey (if flags.WITNESS then nVersion else 0)).mapError
    VerifyError.ofNameScript
  let (hadWitness, stack) ←
    if flags.P2SH ∧ fIsP2SH then do
      if !isPushOnly scriptSig then throw (.script .SIG_PUSHONLY)
      -- the stack saved after the scriptSig; its top is the serialized redeem script
      match stackCopy with
      | [] => throw .assertion
      | pubKey2 :: stack =>
        let stack ← (evalScript crypto stack pubKey2 flags checker .BASE).mapError .script
        match stack with
        | [] => throw (.script .EVAL_FALSE)
        | top :: _ => if !castToBool top then throw (.script .EVAL_FALSE)
        if flags.WITNESS then
          -- a witness program inside the redeem script, never behind a name prefix
          match isWitnessProgramInner pubKey2 with
          | some (witversion, program) =>
            if scriptSig ≠ pushData pubKey2 then throw (.script .WITNESS_MALLEATED_P2SH)
            (verifyWitnessProgram crypto witness witversion program flags checker).mapError
              .script
            pure (true, resizeOne stack)
          | none => pure (hadWitness, stack)
        else pure (hadWitness, stack)
    else pure (hadWitness, stack)
  if flags.CLEANSTACK then
    if !flags.P2SH ∨ !flags.WITNESS then throw .assertion
    if stack.length ≠ 1 then throw (.script .CLEANSTACK)
  if flags.WITNESS then
    if !flags.P2SH then throw .assertion
    if !hadWitness ∧ witness ≠ [] then throw (.script .WITNESS_UNEXPECTED)

/-- `VerifyScript(scriptSig, scriptPubKey, nVersion, witness, flags, checker)`; success is
`.ok ()`. -/
def verifyScript (crypto : ScriptCrypto) (scriptSig scriptPubKey : Script) (nVersion : Int)
    (witness : List (List UInt8)) (flags : VerifyFlags) (checker : SignatureChecker) :
    Except VerifyError Unit := do
  -- name transactions are not checked for minimal pushes
  let flags := if nVersion = NAMECOIN_TX_VERSION then { flags with MINIMALDATA := false }
    else flags
  if flags.SIGPUSHONLY ∧ !isPushOnly scriptSig then throw (.script .SIG_PUSHONLY)
  let stack ← (evalScript crypto [] scriptSig flags checker .BASE).mapError .script
  let stackCopy := if flags.P2SH then stack else []
  let stack ← (evalScript crypto stack scriptPubKey flags checker .BASE).mapError .script
  verifyTemplates crypto scriptSig scriptPubKey nVersion witness flags checker stackCopy stack

/-! ### Reading the scriptPubKey only through its run and its templates -/

/-- The second half of `VerifyScript` reads the scriptPubKey only through the two template
tests. -/
theorem verifyTemplates_congr {crypto : ScriptCrypto} {scriptSig S D : Script} {nVersion : Int}
    {witness : List (List UInt8)} {flags : VerifyFlags} {checker : SignatureChecker}
    {stackCopy stack : Stack}
    (sameWitness : isWitnessProgram S nVersion = isWitnessProgram D nVersion)
    (sameP2SH : isPayToScriptHash S (if flags.WITNESS then nVersion else 0) =
      isPayToScriptHash D (if flags.WITNESS then nVersion else 0)) :
    verifyTemplates crypto scriptSig S nVersion witness flags checker stackCopy stack =
      verifyTemplates crypto scriptSig D nVersion witness flags checker stackCopy stack := by
  unfold verifyTemplates
  rw [sameWitness, sameP2SH]

/-- A second scriptPubKey that succeeds wherever the first one's run does, with the same
answers to the template tests, verifies wherever the first one does. -/
theorem verifyScript_of_runs {crypto : ScriptCrypto} {scriptSig S D : Script} {nVersion : Int}
    {witness : List (List UInt8)} {flags : VerifyFlags} {checker : SignatureChecker}
    (runs : ∀ flags stack stack', evalScript crypto stack S flags checker .BASE = .ok stack' →
      evalScript crypto stack D flags checker .BASE = .ok stack')
    (sameWitness : isWitnessProgram S nVersion = isWitnessProgram D nVersion)
    (sameP2SH : isPayToScriptHash S (if flags.WITNESS then nVersion else 0) =
      isPayToScriptHash D (if flags.WITNESS then nVersion else 0))
    (verified : verifyScript crypto scriptSig S nVersion witness flags checker = .ok ()) :
    verifyScript crypto scriptSig D nVersion witness flags checker = .ok () := by
  -- clearing `MINIMALDATA` for name transactions leaves `WITNESS` as it was
  have sameFlag : (if nVersion = NAMECOIN_TX_VERSION then { flags with MINIMALDATA := false }
      else flags).WITNESS = flags.WITNESS := by
    split <;> rfl
  rw [← sameFlag] at sameP2SH
  unfold verifyScript at verified ⊢
  dsimp only at verified ⊢
  simp only [verifyTemplates_congr sameWitness sameP2SH] at verified
  generalize (if nVersion = NAMECOIN_TX_VERSION then { flags with MINIMALDATA := false }
    else flags) = flags at verified ⊢
  by_cases pushOnly : flags.SIGPUSHONLY = true ∧ (!isPushOnly scriptSig) = true
  · rw [if_pos pushOnly] at verified
    cases verified
  rw [if_neg pushOnly] at verified ⊢
  -- the scriptSig runs as before; the scriptPubKey's run is the one that changes
  obtain ⟨stack, sigRan, verified⟩ := Except.bind_eq_ok.mp verified
  refine Except.bind_eq_ok.mpr ⟨stack, sigRan, ?_⟩
  obtain ⟨stack', pubKeyRan, verified⟩ := Except.bind_eq_ok.mp verified
  rw [Except.mapError_eq_ok] at pubKeyRan
  exact Except.bind_eq_ok.mpr ⟨stack', Except.mapError_eq_ok.mpr (runs _ _ _ pubKeyRan), verified⟩

/-! ### A name prefix in front of a destination -/

/-- What `VerifyScript` sees of a name prefix: it opens with an operation code and
`OP_DROP`, so that neither template test takes the whole script for a script hash or a
witness program, and its instructions push items and drop all of them. -/
structure NamePrefix (P : Script) : Prop where
  pushesAndDrops : PushesAndDrops P
  opens : ∃ code rest, P = code :: OP_DROP :: rest ∧ OP_1 ≤ code ∧ code ≤ OP_16

theorem pushDropBalance_append (ops ops' : List (UInt8 × List UInt8)) (pending : Nat) :
    pushDropBalance (ops ++ ops') pending =
      (pushDropBalance ops pending).bind (pushDropBalance ops') := by
  induction ops generalizing pending with
  | nil => rfl
  | cons op ops ih =>
    obtain ⟨opcode, data⟩ := op
    cases step : pushDropStep opcode pending <;> simp [pushDropBalance, step, ih]

/-- Pushes add one pending item each. -/
theorem pushDropBalance_pushes (chunks : List (List UInt8)) (pending : Nat) :
    pushDropBalance (chunks.map fun c => (pushOpcode c, c)) pending =
      some (pending + chunks.length) := by
  induction chunks generalizing pending with
  | nil => rfl
  | cons c chunks ih =>
    simp only [List.map_cons, pushDropBalance, pushDropStep_push (pushOpcode_le c),
      Option.bind_some, ih, List.length_cons, Option.some.injEq]
    omega

/-- The end markers drop the pushes they follow. -/
theorem pushDropBalance_endMarkers (nChunks : Nat) :
    pushDropBalance ((endMarkers nChunks).map fun m => (m, [])) nChunks = some 0 := by
  have twoDrops : ∀ k pending, pushDropBalance
      ((List.replicate k OP_2DROP).map fun m => (m, ([] : List UInt8))) (pending + 2 * k) =
      some pending := by
    intro k
    induction k with
    | zero => intro pending; rfl
    | succ k ih =>
      intro pending
      have step := pushDropStep_2drop (show 2 ≤ pending + 2 * (k + 1) by omega)
      rw [show pending + 2 * (k + 1) - 2 = pending + 2 * k by omega] at step
      simp only [List.replicate_succ, List.map_cons, pushDropBalance, step, Option.bind_some, ih]
  have pairs : pushDropBalance ((List.replicate (nChunks / 2) OP_2DROP).map fun m => (m, []))
      nChunks = some (nChunks % 2) := by
    have := twoDrops (nChunks / 2) (nChunks % 2)
    rwa [show nChunks % 2 + 2 * (nChunks / 2) = nChunks by omega] at this
  unfold endMarkers
  rw [List.map_append, pushDropBalance_append, pairs]
  split_ifs with odd
  · have one : nChunks % 2 = 1 := by omega
    simp [one, pushDropBalance, pushDropStep_drop]
  · have zero : nChunks % 2 = 0 := by omega
    simp [zero, pushDropBalance]

/-- Every instruction takes at least a byte. -/
theorem length_le_length_flatMap_encode (is : List Instr) :
    is.length ≤ (is.flatMap Instr.encode).length := by
  induction is with
  | nil => simp
  | cons i is ih =>
    have := i.encode_length_pos
    simp only [List.flatMap_cons, List.length_append, List.length_cons]
    omega

/-- A script written instruction by instruction reads back, to its end, as those
instructions. -/
theorem readOps_of_flatMap {is : List Instr} (readable : ∀ i ∈ is, i.Readable) :
    readOps (is.flatMap Instr.encode) (is.flatMap Instr.encode).length 0 =
      some (is.map Instr.read) :=
  readOps_flatMap readable [] (length_le_length_flatMap_encode is)

/-- Opcodes written one after another are their own bytes. -/
theorem flatMap_encode_op (opcodes : List UInt8) :
    (opcodes.map Instr.op).flatMap Instr.encode = opcodes := by
  induction opcodes with
  | nil => rfl
  | cons opcode opcodes ih => simp [Instr.encode, ih]

/-- The prefixes `createNameScript` writes have the shape `VerifyScript` relies on. -/
theorem createNameScript_namePrefix {name value : List UInt8} {nRentalDays : Int}
    {op : NameOp} {P : Script} (nameFits : name.length ≤ MAX_NAME_LENGTH)
    (created : createNameScript name value nRentalDays op = .ok P) : NamePrefix P := by
  have nameShort : name.length < 2 ^ 32 := by simp only [MAX_NAME_LENGTH] at nameFits; omega
  have small := nameOpcode_small op
  have opAbove : OP_PUSHDATA4 < nameOpcode op := by cases op <;> decide
  have dropAbove : OP_PUSHDATA4 < OP_DROP := by decide
  have twoDropAbove : OP_PUSHDATA4 < OP_2DROP := by decide
  by_cases delete : op = .delete
  · subst delete
    have shape := createNameScript_delete created
    -- `op OP_DROP name OP_DROP`
    have written : P = [Instr.op (nameOpcode .delete), .op OP_DROP, .push name,
        .op OP_DROP].flatMap Instr.encode := by
      rw [shape]
      simp [Instr.encode]
    have reads := @readOps_of_flatMap [Instr.op (nameOpcode .delete), .op OP_DROP,
      .push name, .op OP_DROP] (by simp [Instr.Readable, opAbove, dropAbove]; exact nameShort)
    rw [← written] at reads
    refine ⟨⟨_, reads, ?_⟩, ⟨nameOpcode .delete, _, shape, small⟩⟩
    simp [Instr.read, pushDropBalance, pushDropStep_small small, pushDropStep_drop,
      pushDropStep_push (pushOpcode_le name)]
  · obtain ⟨accepted, shape⟩ := createNameScript_value delete created
    have daysShort : (scriptNumSerialize nRentalDays).length < 2 ^ 32 := by
      have := length_scriptNumSerialize_le nRentalDays
      omega
    have chunksShort : ∀ c ∈ valueChunks value, c.length < 2 ^ 32 :=
      fun c mem => by have := length_mem_valueChunks mem; omega
    -- `op OP_DROP name days OP_2DROP chunk .. chunk marker .. marker`
    have written : P = ([Instr.op (nameOpcode op), .op OP_DROP, .push name,
        .push (scriptNumSerialize nRentalDays), .op OP_2DROP] ++
        (valueChunks value).map Instr.push ++
        (endMarkers (valueChunks value).length).map Instr.op).flatMap Instr.encode := by
      rw [shape]
      simp only [List.flatMap_append, flatMap_encode_op]
      simp [Instr.encode, List.flatMap_def, Function.comp_def]
    have reads := @readOps_of_flatMap ([Instr.op (nameOpcode op), .op OP_DROP,
        .push name, .push (scriptNumSerialize nRentalDays), .op OP_2DROP] ++
        (valueChunks value).map Instr.push ++
        (endMarkers (valueChunks value).length).map Instr.op) (by
      intro i mem
      simp only [List.mem_append, List.mem_map] at mem
      rcases mem with (fixed | ⟨c, mem, rfl⟩) | ⟨m, mem, rfl⟩
      · simp only [List.mem_cons, List.not_mem_nil, or_false] at fixed
        rcases fixed with rfl | rfl | rfl | rfl | rfl
        · exact opAbove
        · exact dropAbove
        · exact nameShort
        · exact daysShort
        · exact twoDropAbove
      · exact chunksShort c mem
      · rcases mem_endMarkers mem with rfl | rfl
        · exact dropAbove
        · exact twoDropAbove)
    rw [← written] at reads
    refine ⟨⟨_, reads, ?_⟩, ⟨nameOpcode op, _, shape, small⟩⟩
    have pushes := pushDropBalance_pushes (valueChunks value) 0
    have markers := pushDropBalance_endMarkers (valueChunks value).length
    simp only [List.map_append, List.map_map, pushDropBalance_append]
    simp [Instr.read, Function.comp_def, pushDropBalance, pushDropStep_small small,
      pushDropStep_drop, pushDropStep_push (pushOpcode_le _), pushDropStep_2drop, pushes,
      markers]

/-! ### What the template tests see behind a name prefix -/

/-- A name prefix opens with a small integer, so the whole script is no script hash. -/
theorem isPayToScriptHashInner_namePrefix {P : Script} (namePrefix : NamePrefix P)
    (D : Script) : isPayToScriptHashInner (P ++ D) = false := by
  obtain ⟨code, rest, rfl, -, small⟩ := namePrefix.opens
  have notHash : code ≠ OP_HASH160 := by
    rintro rfl
    revert small
    decide
  simp [isPayToScriptHashInner, notHash]

/-- A name prefix has `OP_DROP` where a witness program has its size byte, which would
need a script of 119 bytes, longer than any witness program. -/
theorem isWitnessProgramInner_namePrefix {P : Script} (namePrefix : NamePrefix P)
    (D : Script) : isWitnessProgramInner (P ++ D) = none := by
  obtain ⟨code, rest, rfl, -, -⟩ := namePrefix.opens
  have size : OP_DROP.toNat + 2 = 119 := rfl
  simp only [List.cons_append, isWitnessProgramInner]
  split_ifs with bounds <;> simp_all

section
variable {P D : Script} (namePrefix : NamePrefix P)
include namePrefix

/-- A name transaction strips a name prefix off to the destination; a destination with no
name prefix of its own is then a witness program exactly when it is one alone. -/
theorem isWitnessProgram_stripped (stripped : removeNameScriptPrefix (P ++ D) = .ok D)
    {errMsg : String} (bare : removeNameScriptPrefix D = .error (.rejected errMsg)) :
    isWitnessProgram (P ++ D) NAMECOIN_TX_VERSION = isWitnessProgram D NAMECOIN_TX_VERSION := by
  unfold isWitnessProgram
  rw [isWitnessProgramInner_namePrefix namePrefix, stripped]
  cases inner : isWitnessProgramInner D <;> simp [bare, inner]

theorem isPayToScriptHash_stripped (stripped : removeNameScriptPrefix (P ++ D) = .ok D)
    {errMsg : String} (bare : removeNameScriptPrefix D = .error (.rejected errMsg)) :
    isPayToScriptHash (P ++ D) NAMECOIN_TX_VERSION = isPayToScriptHash D NAMECOIN_TX_VERSION := by
  unfold isPayToScriptHash
  rw [isPayToScriptHashInner_namePrefix namePrefix, stripped]
  cases inner : isPayToScriptHashInner D <;> simp [bare, inner]

/-- Any other transaction sees no witness program behind a name prefix, nor in a
destination that is none. -/
theorem isWitnessProgram_plain {nVersion : Int} (other : nVersion ≠ NAMECOIN_TX_VERSION)
    (notWitness : isWitnessProgramInner D = none) :
    isWitnessProgram (P ++ D) nVersion = isWitnessProgram D nVersion := by
  simp [isWitnessProgram, isWitnessProgramInner_namePrefix namePrefix, notWitness, other]

theorem isPayToScriptHash_plain {nVersion : Int} (other : nVersion ≠ NAMECOIN_TX_VERSION)
    (notP2SH : isPayToScriptHashInner D = false) :
    isPayToScriptHash (P ++ D) nVersion = isPayToScriptHash D nVersion := by
  simp [isPayToScriptHash, isPayToScriptHashInner_namePrefix namePrefix, notP2SH, other]

end

/-- A name prefix keeps the spending condition of the destination behind it when both
see the same templates: for a name transaction whose `RemoveNameScriptPrefix` strips the
prefix to exactly a destination with no name prefix of its own, and for any other
transaction when the destination is neither a script hash nor a witness program. The
signature checker must not look at the script code, and `WITNESS` must be on. -/
theorem verifyScript_namePrefix {crypto : ScriptCrypto} {P D scriptSig : Script}
    {nVersion : Int} {witness : List (List UInt8)} {flags : VerifyFlags}
    {checker : SignatureChecker} (namePrefix : NamePrefix P)
    (ignores : checker.IgnoresScriptCode) (witnessOn : flags.WITNESS = true)
    (templates : (nVersion = NAMECOIN_TX_VERSION ∧ removeNameScriptPrefix (P ++ D) = .ok D ∧
        ∃ errMsg, removeNameScriptPrefix D = .error (.rejected errMsg)) ∨
      (nVersion ≠ NAMECOIN_TX_VERSION ∧ isPayToScriptHashInner D = false ∧
        isWitnessProgramInner D = none))
    (verified : verifyScript crypto scriptSig (P ++ D) nVersion witness flags checker = .ok ()) :
    verifyScript crypto scriptSig D nVersion witness flags checker = .ok () := by
  -- the prefix pushes and drops what it pushed, so the runs agree
  have runs : ∀ flags stack stack', evalScript crypto stack (P ++ D) flags checker .BASE =
      .ok stack' → evalScript crypto stack D flags checker .BASE = .ok stack' :=
    fun _ _ _ ran => evalScript_append ignores namePrefix.pushesAndDrops ran
  rcases templates with ⟨rfl, stripped, errMsg, bare⟩ | ⟨other, notP2SH, notWitness⟩
  · refine verifyScript_of_runs runs (isWitnessProgram_stripped namePrefix stripped bare) ?_
      verified
    rw [witnessOn, if_pos rfl]
    exact isPayToScriptHash_stripped namePrefix stripped bare
  · refine verifyScript_of_runs runs (isWitnessProgram_plain namePrefix other notWitness) ?_
      verified
    rw [witnessOn, if_pos rfl]
    exact isPayToScriptHash_plain namePrefix other notP2SH

example :
    verifyScript ⟨fun _ => List.replicate 20 7, id, id, fun _ => true⟩ [0x01, 0x01, 0x01, 0x02]
        (getScriptForDestination (.keyId (List.replicate 20 7))) 1 []
        { P2SH := true, WITNESS := true } ⟨fun _ _ _ _ => true, fun _ => true, fun _ => true⟩ =
      .ok () :=
  verifyScript_namePrefix (P := [0x51, 0x75, 0x01, 0x61, 0x01, 0x01, 0x6d, 0x01, 0x62, 0x75])
    (@createNameScript_namePrefix [0x61] [0x62] 1 .new _ (by decide) (by decide))
    (fun _ _ _ _ => rfl) rfl (.inr ⟨by decide, by decide, by decide⟩) (by rfl)

/-- Without the same templates the prefix does weaken the destination: a spending
transaction that is not a name transaction sees no witness program in a name prefix in
front of a pay-to-witness-key-hash destination, so an empty scriptSig and an empty witness
spend the whole, while the destination alone requires its two witness items. -/
theorem verifyScript_witnessBehindPrefix (crypto : ScriptCrypto) (checker : SignatureChecker) :
    createNameScript [0x61] [0x62] 1 .new =
        .ok [0x51, 0x75, 0x01, 0x61, 0x01, 0x01, 0x6d, 0x01, 0x62, 0x75] ∧
      verifyScript crypto [] ([0x51, 0x75, 0x01, 0x61, 0x01, 0x01, 0x6d, 0x01, 0x62, 0x75] ++
        ([OP_0, 0x14] ++ List.replicate 20 1)) 1 [] { P2SH := true, WITNESS := true } checker =
        .ok () ∧
      verifyScript crypto [] ([OP_0, 0x14] ++ List.replicate 20 1) 1 []
        { P2SH := true, WITNESS := true } checker = .error (.script .WITNESS_PROGRAM_MISMATCH) :=
  ⟨by decide, by rfl, by rfl⟩

/-- `VerifyScript` strips a name prefix before its template tests only for a spender of
version `NAMECOIN_TX_VERSION`, although the comment over each test says "remove name (if
any)". A transaction of version 1 spending a name output therefore meets neither the script
hash nor the witness program behind the prefix. Behind the prefix `createNameScript` writes
for the name `a`, the value `b` and one day: the scriptSig that pushes the redeem script
`OP_0` spends a pay-to-script-hash of it, whose redeem script a name transaction and the bare
destination both run and find false; and an empty scriptSig with no witness spends a
pay-to-witness-key-hash that alone requires its two witness items. -/
theorem verifyScript_plainSpenderSkipsTemplates :
    verifyScript ⟨fun _ => List.replicate 20 7, id, id, fun _ => true⟩ (pushData [OP_0])
        ([0x51, 0x75, 0x01, 0x61, 0x01, 0x01, 0x6d, 0x01, 0x62, 0x75] ++
          getScriptForDestination (.scriptId (List.replicate 20 7)))
        1 [] { P2SH := true, WITNESS := true } ⟨fun _ _ _ _ => true, fun _ => true, fun _ => true⟩ =
        .ok () ∧
      verifyScript ⟨fun _ => List.replicate 20 7, id, id, fun _ => true⟩ (pushData [OP_0])
        ([0x51, 0x75, 0x01, 0x61, 0x01, 0x01, 0x6d, 0x01, 0x62, 0x75] ++
          getScriptForDestination (.scriptId (List.replicate 20 7)))
        NAMECOIN_TX_VERSION [] { P2SH := true, WITNESS := true }
        ⟨fun _ _ _ _ => true, fun _ => true, fun _ => true⟩ = .error (.script .EVAL_FALSE) ∧
      verifyScript ⟨fun _ => List.replicate 20 7, id, id, fun _ => true⟩ (pushData [OP_0])
        (getScriptForDestination (.scriptId (List.replicate 20 7)))
        1 [] { P2SH := true, WITNESS := true } ⟨fun _ _ _ _ => true, fun _ => true, fun _ => true⟩ =
        .error (.script .EVAL_FALSE) ∧
      verifyScript ⟨fun _ => List.replicate 20 7, id, id, fun _ => true⟩ []
        ([0x51, 0x75, 0x01, 0x61, 0x01, 0x01, 0x6d, 0x01, 0x62, 0x75] ++ ([OP_0, 0x14] ++ List.replicate 20 1))
        1 [] { P2SH := true, WITNESS := true } ⟨fun _ _ _ _ => true, fun _ => true, fun _ => true⟩ =
        .ok () ∧
      verifyScript ⟨fun _ => List.replicate 20 7, id, id, fun _ => true⟩ [] ([OP_0, 0x14] ++ List.replicate 20 1)
        1 [] { P2SH := true, WITNESS := true } ⟨fun _ _ _ _ => true, fun _ => true, fun _ => true⟩ =
        .error (.script .WITNESS_PROGRAM_MISMATCH) := by
  obtain ⟨-, witnessSpent, witnessRequired⟩ := verifyScript_witnessBehindPrefix
    ⟨fun _ => List.replicate 20 7, id, id, fun _ => true⟩ ⟨fun _ _ _ _ => true, fun _ => true, fun _ => true⟩
  exact ⟨by rfl, by rfl, by rfl, witnessSpent, witnessRequired⟩

/-! ### A rental-days push of more than four bytes -/

/-- `DecodeNameScript` constructs `CScriptNum(vch, false)` from the rental-days push, which
throws `scriptnum_error` for more than four bytes. A scriptPubKey that opens like a name
script with a five-byte rental-days push therefore makes `IsPayToScriptHash` and
`IsWitnessProgram` throw for a name transaction, and the exception escapes `VerifyScript`. -/
theorem verifyScript_rentalDaysOverflow (crypto : ScriptCrypto) (checker : SignatureChecker) :
    decodeNameScript [OP_1, OP_DROP, OP_0, 0x05, 1, 2, 3, 4, 5, OP_2DROP, OP_1] 0 =
        .error (.scriptNum .overflow) ∧
      isPayToScriptHash [OP_1, OP_DROP, OP_0, 0x05, 1, 2, 3, 4, 5, OP_2DROP, OP_1]
        NAMECOIN_TX_VERSION = .error (.scriptNum .overflow) ∧
      isWitnessProgram [OP_1, OP_DROP, OP_0, 0x05, 1, 2, 3, 4, 5, OP_2DROP, OP_1]
        NAMECOIN_TX_VERSION = .error (.scriptNum .overflow) ∧
      verifyScript crypto [] [OP_1, OP_DROP, OP_0, 0x05, 1, 2, 3, 4, 5, OP_2DROP, OP_1]
        NAMECOIN_TX_VERSION [] { P2SH := true, WITNESS := true } checker =
        .error (.scriptNum .overflow) :=
  ⟨by decide, by decide, by decide, by rfl⟩

end MFCoin.Script
