/-
Module: MFCoin.Script.Prefix
Purpose: A stretch of script in front of another that pushes items and drops all of them
  again hands the rest of the script the stacks it started from; from there the whole
  script runs as the rest on its own (`evalScript_append`), as long as the signature
  checker does not look at the script code. This is the shape of a name script's prefix
  (`OP_NAME_* <name> <value> ... OP_2DROP OP_DROP`) in front of its destination.
Main exports: Machine.Below, PushesAndDrops,
  evalLoop_append_right, evalLoop_pushDrop, evalScript_append
-/
import MFCoin.Script.Interpreter

namespace MFCoin.Script

open MFCoin.CoinsView (MAX_SCRIPT_SIZE)

variable {env : Env}

/-! ### A checker blind to the script code

`CHECKSIG` and `CHECKMULTISIG` hand the checker the script code from the last
`OP_CODESEPARATOR` on; a checker that does not look at it gives the same answers for any. -/

section
variable (ignores : env.checker.IgnoresScriptCode)
include ignores

theorem opCheckSig_ignores (scriptCode : Script) (opcode : UInt8) (stack : Stack) :
    opCheckSig env scriptCode opcode stack = opCheckSig env [] opcode stack := by
  match stack with
  | vchPubKey :: vchSig :: rest =>
    unfold SignatureChecker.IgnoresScriptCode at ignores
    simp only [opCheckSig, ignores]
  | [] => rfl
  | [_] => rfl

theorem checkMultiSigLoop_ignores (scriptCode : Script) :
    ∀ sigs keys, checkMultiSigLoop env scriptCode sigs keys = checkMultiSigLoop env [] sigs keys
  | [], _ => by simp only [checkMultiSigLoop]
  | _ :: _, [] => by simp only [checkMultiSigLoop]
  | vchSig :: sigs, vchPubKey :: keys => by
    unfold SignatureChecker.IgnoresScriptCode at ignores
    simp only [checkMultiSigLoop, ignores, checkMultiSigLoop_ignores scriptCode _ keys]

theorem multiSigRest_ignores (scriptCode : Script) (opcode : UInt8) (nKeysCount : Nat)
    (stack : Stack) :
    multiSigRest env scriptCode opcode nKeysCount stack = multiSigRest env [] opcode nKeysCount stack := by
  simp only [multiSigRest, checkMultiSigLoop_ignores ignores _ _ _]

end

/-- The opcodes `execOp` hands to `execStackOp`: all but the three that read the script or
the op count. -/
def ReadsStacksOnly (opcode : UInt8) : Prop :=
  opcode ≠ OP_CODESEPARATOR ∧ opcode ≠ OP_CHECKSIG ∧ opcode ≠ OP_CHECKSIGVERIFY ∧
    opcode ≠ OP_CHECKMULTISIG ∧ opcode ≠ OP_CHECKMULTISIGVERIFY

theorem execOp_of_readsStacksOnly {script : Script} {pc : Nat} {opcode : UInt8} {fExec : Bool}
    {m : Machine} (plain : ReadsStacksOnly opcode) :
    execOp env script pc opcode fExec m =
      execStackOp env opcode fExec m.stacks >>= fun «stacks» => pure { m with «stacks» := «stacks» } := by
  obtain ⟨h1, h2, h3, h4, h5⟩ := plain
  unfold execOp
  split <;> first | rfl | (exfalso; revert h1 h2 h3 h4 h5; decide)

/-! ### Running a script's suffix against the whole script -/

/-- A machine in the state of another, having counted no more ops. -/
structure Machine.Below (m m' : Machine) : Prop where
  «stacks» : m.stacks = m'.stacks
  nOpCount : m.nOpCount ≤ m'.nOpCount

section
variable (ignores : env.checker.IgnoresScriptCode)
include ignores

/-- `CHECKMULTISIG` from a lower op count gives the same stack and stays lower, whatever
script code each is handed. -/
theorem opCheckMultiSig_below {scriptCode₁ scriptCode₂ : Script} {opcode : UInt8}
    {n₁ n₂ n₁' : Nat} {stack stack' : Stack}
    (ran : opCheckMultiSig env scriptCode₁ opcode n₁ stack = .ok (stack', n₁'))
    (fewer : n₂ ≤ n₁) :
    ∃ n₂', opCheckMultiSig env scriptCode₂ opcode n₂ stack = .ok (stack', n₂') ∧ n₂' ≤ n₁' := by
  simp only [opCheckMultiSig, Except.bind_eq_ok] at ran ⊢
  obtain ⟨nKeysCount, counted, ran⟩ := ran
  have within : ¬ n₁ + nKeysCount > MAX_OPS_PER_SCRIPT := by
    intro tooMany
    simp [tooMany] at ran
  have within₂ : ¬ n₂ + nKeysCount > MAX_OPS_PER_SCRIPT := by omega
  simp only [within, if_false, Except.bind_eq_ok, Except.pure_eq_ok, Prod.mk.injEq] at ran
  obtain ⟨rest, restRan, rfl, rfl⟩ := ran
  rw [multiSigRest_ignores ignores] at restRan
  refine ⟨n₂ + nKeysCount, ⟨nKeysCount, counted, ?_⟩, by omega⟩
  simp only [within₂, if_false, Except.bind_eq_ok, Except.pure_eq_ok, Prod.mk.injEq]
  exact ⟨rest, by rw [multiSigRest_ignores ignores, restRan], rfl, trivial⟩

/-- The opcode switch from a machine below another stays below it, whatever script and
iterator each runs at. -/
theorem execOp_below {script₁ script₂ : Script} {pc₁ pc₂ : Nat} {opcode : UInt8} {fExec : Bool}
    {m₁ m₂ m₁' : Machine} (below : m₂.Below m₁)
    (ran : execOp env script₁ pc₁ opcode fExec m₁ = .ok m₁') :
    ∃ m₂', execOp env script₂ pc₂ opcode fExec m₂ = .ok m₂' ∧ m₂'.Below m₁' := by
  obtain ⟨sameStacks, fewer⟩ := below
  by_cases separator : opcode = OP_CODESEPARATOR
  · -- only the start of the script code moves
    subst separator
    cases ran
    exact ⟨_, rfl, sameStacks, fewer⟩
  by_cases checkSig : opcode = OP_CHECKSIG ∨ opcode = OP_CHECKSIGVERIFY
  · have unfolded : ∀ script pc (m : Machine), execOp env script pc opcode fExec m =
        opCheckSig env [] opcode m.stacks.stack >>= fun stack =>
          pure { m with «stacks» := { m.stacks with stack := stack } } := by
      intro script pc m
      rw [← opCheckSig_ignores ignores (script.drop m.pbegincodehash)]
      rcases checkSig with rfl | rfl <;> rfl
    simp only [unfolded, Except.bind_eq_ok, Except.pure_eq_ok] at ran
    obtain ⟨stack, checked, rfl⟩ := ran
    refine ⟨{ m₂ with «stacks» := { m₂.stacks with stack := stack } }, ?_, ?_, fewer⟩
    · rw [unfolded, sameStacks, checked]
      rfl
    · simp [sameStacks]
  by_cases multiSig : opcode = OP_CHECKMULTISIG ∨ opcode = OP_CHECKMULTISIGVERIFY
  · have unfolded : ∀ script pc (m : Machine), execOp env script pc opcode fExec m =
        opCheckMultiSig env (script.drop m.pbegincodehash) opcode m.nOpCount m.stacks.stack >>=
          fun r => pure { m with «stacks» := { m.stacks with stack := r.1 }, nOpCount := r.2 } := by
      rcases multiSig with rfl | rfl <;> intros <;> rfl
    simp only [unfolded, Except.bind_eq_ok, Except.pure_eq_ok] at ran
    obtain ⟨⟨stack, n₁'⟩, checked, rfl⟩ := ran
    obtain ⟨n₂', checked₂, fewer'⟩ := opCheckMultiSig_below ignores checked fewer
    refine ⟨{ m₂ with «stacks» := { m₂.stacks with stack := stack }, nOpCount := n₂' }, ?_, ?_,
      fewer'⟩
    · rw [unfolded, sameStacks, checked₂]
      rfl
    · simp [sameStacks]
  · have plain : ReadsStacksOnly opcode := by
      simp only [not_or] at checkSig multiSig
      exact ⟨separator, checkSig.1, checkSig.2, multiSig.1, multiSig.2⟩
    simp only [execOp_of_readsStacksOnly plain, Except.bind_eq_ok, Except.pure_eq_ok] at ran
    obtain ⟨stacks₁, stepped, rfl⟩ := ran
    refine ⟨{ m₂ with «stacks» := stacks₁ }, ?_, rfl, fewer⟩
    rw [execOp_of_readsStacksOnly plain, sameStacks, stepped]
    rfl

/-- Dispatching the same instruction from a machine below another stays below it. -/
theorem dispatchInstruction_below {script₁ script₂ : Script} {read₁ read₂ : GetOpResult}
    {m₁ m₂ m₁' : Machine} (opcode : read₂.opcode = read₁.opcode) (data : read₂.data = read₁.data)
    (below : m₂.Below m₁) (ran : dispatchInstruction env script₁ read₁ m₁ = .ok m₁') :
    ∃ m₂', dispatchInstruction env script₂ read₂ m₂ = .ok m₂' ∧ m₂'.Below m₁' := by
  simp only [dispatchInstruction] at ran ⊢
  rw [opcode, data, below.stacks]
  -- the failed minimal-push check is an error, and drops out
  split_ifs at ran ⊢ with push minimal control
  · cases ran
    exact ⟨_, rfl, rfl, below.nOpCount⟩
  · exact execOp_below ignores below ran
  · cases ran
    exact ⟨_, rfl, below⟩

/-- A round's instruction run from a machine below another stays below it. -/
theorem runInstruction_below {script₁ script₂ : Script} {read₁ read₂ : GetOpResult}
    {m₁ m₂ m₁' : Machine} (opcode : read₂.opcode = read₁.opcode) (data : read₂.data = read₁.data)
    (below : m₂.Below m₁) (ran : runInstruction env script₁ read₁ m₁ = .ok m₁') :
    ∃ m₂', runInstruction env script₂ read₂ m₂ = .ok m₂' ∧ m₂'.Below m₁' := by
  simp only [runInstruction, Except.bind_eq_ok] at ran ⊢
  obtain ⟨dispatched, first, sized⟩ := ran
  obtain ⟨m₂', first₂, below'⟩ := dispatchInstruction_below ignores opcode data below first
  split_ifs at sized with oversized
  · cases sized
  · cases sized
    refine ⟨m₂', ⟨m₂', first₂, ?_⟩, below'⟩
    rw [below'.stacks, if_neg oversized]
    rfl

/-- A round behind a prefix, from a machine above another, is a round of the script alone
from the lower machine, which stays below. -/
theorem evalStep_append_right {P D : Script} {pc pc₁ : Nat} {m₁ m₂ m₁' : Machine}
    (below : m₂.Below m₁) (stepped : evalStep env (P ++ D) (P.length + pc) m₁ = .ok (pc₁, m₁')) :
    ∃ pc' m₂', evalStep env D pc m₂ = .ok (pc', m₂') ∧ pc₁ = P.length + pc' ∧ m₂'.Below m₁' := by
  rw [evalStep_eq_ok, getOp_append_right] at stepped
  obtain ⟨ok, short, counted, enabled, rfl, ran⟩ := stepped
  -- the op count of the lower machine grows by the same step
  have countedBelow :
      ({ m₂ with nOpCount :=
          if (getOp D pc).opcode > OP_16 then m₂.nOpCount + 1 else m₂.nOpCount } : Machine).Below
        { m₁ with nOpCount :=
          if (getOp D pc).opcode > OP_16 then m₁.nOpCount + 1 else m₁.nOpCount } := by
    refine ⟨below.stacks, ?_⟩
    have := below.nOpCount
    dsimp only
    split_ifs <;> omega
  obtain ⟨m₂', ran₂, below'⟩ : ∃ m₂', runInstruction env D (getOp D pc) _ = .ok m₂' ∧ _ :=
    runInstruction_below ignores (by rfl) (by rfl) countedBelow ran
  refine ⟨_, m₂', evalStep_eq_ok.mpr ⟨ok, short, ?_, enabled, rfl, ran₂⟩, rfl, below'⟩
  rintro ⟨big, tooMany⟩
  exact counted ⟨big, by have := below.nOpCount; omega⟩

/-- A run behind a prefix, from a machine above another, succeeds only where the run of the
script alone from the lower machine succeeds, and ends above it. -/
theorem evalLoop_append_right {P D : Script} :
    ∀ {fuel pc : Nat} {m₁ m₂ m₁' : Machine}, m₂.Below m₁ →
      evalLoop env (P ++ D) fuel (P.length + pc) m₁ = .ok m₁' →
      ∃ m₂', evalLoop env D fuel pc m₂ = .ok m₂' ∧ m₂'.Below m₁'
  | 0, _, _, m₂, _, below, ran => by
    cases ran
    exact ⟨m₂, rfl, below⟩
  | fuel + 1, pc, m₁, m₂, m₁', below, ran => by
    rcases evalLoop_succ_ok.mp ran with ⟨ended, rfl⟩ | ⟨inside, pc₁, mid, stepped, rest⟩
    · have ended₂ : D.length ≤ pc := by simp at ended; omega
      exact ⟨m₂, evalLoop_succ_ok.mpr (.inl ⟨ended₂, rfl⟩), below⟩
    · have inside₂ : pc < D.length := by simp at inside; omega
      obtain ⟨pc', mid₂, stepped₂, rfl, belowMid⟩ := evalStep_append_right ignores below stepped
      obtain ⟨m₂', rest₂, below'⟩ := evalLoop_append_right belowMid rest
      exact ⟨m₂', evalLoop_succ_ok.mpr (.inr ⟨inside₂, pc', mid₂, stepped₂, rest₂⟩), below'⟩

end


/-! ### Stretches of script that push and then drop what they pushed -/

/-- The instructions `GetOp` reads from `pc` to the end of the script, or `none` when a
read fails (or the fuel runs out before the end). -/
def readOps (script : Script) : Nat → Nat → Option (List (UInt8 × List UInt8))
  | 0, pc => if pc < script.length then none else some []
  | fuel + 1, pc =>
    if pc < script.length then
      let read := getOp script pc
      if read.ok then (readOps script fuel read.pc).map ((read.opcode, read.data) :: ·)
      else none
    else some []

/-- The items an instruction leaves pushed, given those pushed before it: a push adds one,
`OP_DROP` and `OP_2DROP` take one and two of them; any other opcode, or a drop of more
than was pushed, is refused. -/
def pushDropStep (opcode : UInt8) (pending : Nat) : Option Nat :=
  if opcode ≤ OP_PUSHDATA4 ∨ opcode = OP_1NEGATE ∨ (OP_1 ≤ opcode ∧ opcode ≤ OP_16) then
    some (pending + 1)
  else if opcode = OP_DROP ∧ 1 ≤ pending then some (pending - 1)
  else if opcode = OP_2DROP ∧ 2 ≤ pending then some (pending - 2)
  else none

/-- The items left pushed after a list of instructions, if each one is a push or a drop. -/
def pushDropBalance : List (UInt8 × List UInt8) → Nat → Option Nat
  | [], pending => some pending
  | (opcode, _) :: ops, pending => (pushDropStep opcode pending).bind (pushDropBalance ops)

/-- A script that reads as pushes and drops, and drops all that it pushes. -/
def PushesAndDrops (P : Script) : Prop :=
  ∃ ops, readOps P P.length 0 = some ops ∧ pushDropBalance ops 0 = some 0

theorem pushDropStep_cases {opcode : UInt8} {pending pending' : Nat}
    (step : pushDropStep opcode pending = some pending') :
    (opcode ≤ OP_PUSHDATA4 ∧ pending' = pending + 1) ∨
    (¬ opcode ≤ OP_PUSHDATA4 ∧ (opcode = OP_1NEGATE ∨ (OP_1 ≤ opcode ∧ opcode ≤ OP_16)) ∧
      pending' = pending + 1) ∨
    (opcode = OP_DROP ∧ 1 ≤ pending ∧ pending' = pending - 1) ∨
    (opcode = OP_2DROP ∧ 2 ≤ pending ∧ pending' = pending - 2) := by
  unfold pushDropStep at step
  split_ifs at step with push drop drop2 <;> cases step
  · by_cases data : opcode ≤ OP_PUSHDATA4
    · exact .inl ⟨data, rfl⟩
    · exact .inr (.inl ⟨data, push.resolve_left data, rfl⟩)
  · exact .inr (.inr (.inl ⟨drop.1, drop.2, rfl⟩))
  · exact .inr (.inr (.inr ⟨drop2.1, drop2.2, rfl⟩))

theorem pushDropStep_push {opcode : UInt8} (push : opcode ≤ OP_PUSHDATA4) (pending : Nat) :
    pushDropStep opcode pending = some (pending + 1) := by
  simp [pushDropStep, push]

theorem pushDropStep_small {opcode : UInt8} (small : OP_1 ≤ opcode ∧ opcode ≤ OP_16)
    (pending : Nat) : pushDropStep opcode pending = some (pending + 1) := by
  simp [pushDropStep, small]

theorem pushDropStep_drop {pending : Nat} (enough : 1 ≤ pending) :
    pushDropStep OP_DROP pending = some (pending - 1) := by
  have notPush : ¬ (OP_DROP ≤ OP_PUSHDATA4 ∨ OP_DROP = OP_1NEGATE ∨
      (OP_1 ≤ OP_DROP ∧ OP_DROP ≤ OP_16)) := by decide
  rw [pushDropStep, if_neg notPush, if_pos ⟨rfl, enough⟩]

theorem pushDropStep_2drop {pending : Nat} (enough : 2 ≤ pending) :
    pushDropStep OP_2DROP pending = some (pending - 2) := by
  have notPush : ¬ (OP_2DROP ≤ OP_PUSHDATA4 ∨ OP_2DROP = OP_1NEGATE ∨
      (OP_1 ≤ OP_2DROP ∧ OP_2DROP ≤ OP_16)) := by decide
  have notDrop : ¬ (OP_2DROP = OP_DROP ∧ 1 ≤ pending) := fun drop => absurd drop.1 (by decide)
  rw [pushDropStep, if_neg notPush, if_neg notDrop, if_pos ⟨rfl, enough⟩]

/-- The small-integer pushes, `OP_1NEGATE` included, are plain stack opcodes. -/
theorem readsStacksOnly_of_le_OP_16 {opcode : UInt8} (small : opcode ≤ OP_16) :
    ReadsStacksOnly opcode := by
  refine ⟨?_, ?_, ?_, ?_, ?_⟩ <;> (rintro rfl; revert small; decide)

theorem execStackOp_smallInt {opcode : UInt8} {fExec : Bool} {s : Stacks}
    (small : opcode = OP_1NEGATE ∨ (OP_1 ≤ opcode ∧ opcode ≤ OP_16)) :
    execStackOp env opcode fExec s =
      .ok { s with stack := scriptNumSerialize (opcode.toNat - (OP_1.toNat - 1) : Int) :: s.stack } := by
  unfold execStackOp
  rw [if_pos small]

theorem execStackOp_drop {fExec : Bool} {x : List UInt8} {rest altstack : Stack} {vfExec : List Bool} :
    execStackOp env OP_DROP fExec ⟨x :: rest, altstack, vfExec⟩ = .ok ⟨rest, altstack, vfExec⟩ := rfl

theorem execStackOp_2drop {fExec : Bool} {x y : List UInt8} {rest altstack : Stack}
    {vfExec : List Bool} :
    execStackOp env OP_2DROP fExec ⟨x :: y :: rest, altstack, vfExec⟩ = .ok ⟨rest, altstack, vfExec⟩ :=
  rfl

/-- An instruction that pushes or drops, run outside any conditional, pushes onto or drops
from the items pushed so far, and leaves the rest of the stacks alone. -/
theorem runInstruction_pushDrop {script : Script} {read : GetOpResult} {m m' : Machine}
    {pushed stack altstack : Stack} {pending : Nat}
    (step : pushDropStep read.opcode pushed.length = some pending)
    (onStacks : m.stacks = ⟨pushed ++ stack, altstack, []⟩)
    (ran : runInstruction env script read m = .ok m') :
    ∃ pushed' : Stack, pushed'.length = pending ∧ m'.stacks = ⟨pushed' ++ stack, altstack, []⟩ := by
  simp only [runInstruction, Except.bind_eq_ok] at ran
  obtain ⟨dispatched, dispatchedOk, sized⟩ := ran
  have same : m' = dispatched := by
    split_ifs at sized
    · cases sized
    · exact (Except.pure_eq_ok.mp sized).symm
  subst same
  simp only [dispatchInstruction, onStacks, List.all_nil, true_and, true_or, if_true] at dispatchedOk
  rcases pushDropStep_cases step with ⟨data, rfl⟩ | ⟨data, small, rfl⟩ | ⟨drop, enough, rfl⟩ |
    ⟨drop, enough, rfl⟩
  · -- a data push, which the minimal-push check let through
    rw [if_pos data] at dispatchedOk
    split_ifs at dispatchedOk
    cases dispatchedOk
    exact ⟨read.data :: pushed, by simp, rfl⟩
  · rw [if_neg data] at dispatchedOk
    have plain : ReadsStacksOnly read.opcode := by
      apply readsStacksOnly_of_le_OP_16
      rcases small with same | ⟨-, le⟩
      · rw [same]
        decide
      · exact le
    simp only [execOp_of_readsStacksOnly plain, execStackOp_smallInt small, onStacks] at dispatchedOk
    cases dispatchedOk
    exact ⟨_ :: pushed, by simp, rfl⟩
  · rw [drop, if_neg (by decide)] at dispatchedOk
    obtain ⟨x, rest, rfl⟩ := List.exists_cons_of_length_pos (by omega : 0 < pushed.length)
    rw [execOp_of_readsStacksOnly (by unfold ReadsStacksOnly; decide), onStacks] at dispatchedOk
    simp only [List.cons_append, execStackOp_drop] at dispatchedOk
    cases dispatchedOk
    exact ⟨rest, by simp, rfl⟩
  · rw [drop, if_neg (by decide)] at dispatchedOk
    obtain ⟨x, tail, rfl⟩ := List.exists_cons_of_length_pos (by omega : 0 < pushed.length)
    obtain ⟨y, rest, rfl⟩ := List.exists_cons_of_length_pos
      (by rw [List.length_cons] at enough; omega : 0 < tail.length)
    rw [execOp_of_readsStacksOnly (by unfold ReadsStacksOnly; decide), onStacks] at dispatchedOk
    simp only [List.cons_append, execStackOp_2drop] at dispatchedOk
    cases dispatchedOk
    exact ⟨rest, by simp, rfl⟩

theorem readOps_end {P : Script} {fuel pc : Nat} {ops : List (UInt8 × List UInt8)}
    (parsed : readOps P fuel pc = some ops) (ended : P.length ≤ pc) : ops = [] := by
  have notInside : ¬ pc < P.length := by omega
  cases fuel <;> simpa [readOps, notInside, eq_comm] using parsed

theorem readOps_zero {P : Script} {pc : Nat} {ops : List (UInt8 × List UInt8)}
    (parsed : readOps P 0 pc = some ops) : P.length ≤ pc := by
  by_contra inside
  simp [readOps, Nat.lt_of_not_le inside] at parsed

theorem readOps_succ {P : Script} {fuel pc : Nat} {ops : List (UInt8 × List UInt8)}
    (parsed : readOps P (fuel + 1) pc = some ops) (inside : pc < P.length) :
    ∃ ops', (getOp P pc).ok = true ∧ ops = ((getOp P pc).opcode, (getOp P pc).data) :: ops' ∧
      readOps P fuel (getOp P pc).pc = some ops' := by
  simp only [readOps, inside, if_true] at parsed
  split_ifs at parsed with ok
  obtain ⟨ops', rest, rfl⟩ := Option.map_eq_some_iff.mp parsed
  exact ⟨ops', ok, rfl, rest⟩

/-- A stretch that pushes and drops, run at the front of a script outside any conditional,
hands the rest of the script the stacks it found, with fuel left for the rest. -/
theorem evalLoop_pushDrop {P D : Script} {stack altstack : Stack} {fuel pc : Nat}
    {ops : List (UInt8 × List UInt8)} {pushed : Stack} {F : Nat} {m mEnd : Machine}
    (parsed : readOps P fuel pc = some ops) (balanced : pushDropBalance ops pushed.length = some 0)
    (inP : pc ≤ P.length) (enough : (P ++ D).length - pc ≤ F)
    (onStacks : m.stacks = ⟨pushed ++ stack, altstack, []⟩)
    (ran : evalLoop env (P ++ D) F pc m = .ok mEnd) :
    ∃ F' m', D.length ≤ F' ∧ m'.stacks = ⟨stack, altstack, []⟩ ∧
      evalLoop env (P ++ D) F' P.length m' = .ok mEnd := by
  -- at the end of the stretch nothing is left pushed
  have atEnd : ∀ {fuel pc ops} {pushed : Stack} {F m}, readOps P fuel pc = some ops →
      pushDropBalance ops pushed.length = some 0 → pc = P.length →
      (P ++ D).length - pc ≤ F → m.stacks = ⟨pushed ++ stack, altstack, []⟩ →
      evalLoop env (P ++ D) F pc m = .ok mEnd →
      ∃ F' m', D.length ≤ F' ∧ m'.stacks = ⟨stack, altstack, []⟩ ∧
        evalLoop env (P ++ D) F' P.length m' = .ok mEnd := by
    intro fuel pc ops pushed F m parsed balanced atLength enough onStacks ran
    subst atLength
    obtain rfl := readOps_end parsed le_rfl
    obtain rfl : pushed = [] := by simpa [pushDropBalance] using balanced
    exact ⟨F, m, by simpa using enough, onStacks, ran⟩
  induction fuel generalizing pc ops pushed F m with
  | zero => exact atEnd parsed balanced (by have := readOps_zero parsed; omega) enough onStacks ran
  | succ fuel ih =>
    by_cases inside : pc < P.length
    · obtain ⟨ops', ok, rfl, rest⟩ := readOps_succ parsed inside
      obtain ⟨pending, step, balanced'⟩ : ∃ pending,
          pushDropStep (getOp P pc).opcode pushed.length = some pending ∧
            pushDropBalance ops' pending = some 0 := by
        simpa [pushDropBalance, Option.bind_eq_some_iff] using balanced
      have further := getOp_pc_gt ok
      obtain ⟨F₀, rfl⟩ : ∃ F₀, F = F₀ + 1 :=
        ⟨F - 1, by rw [List.length_append] at enough; omega⟩
      -- one round of the loop reads the stretch's instruction from the whole script
      rcases evalLoop_succ_ok.mp ran with ⟨ended, -⟩ | ⟨-, pc₁, m₁, stepped, later⟩
      · simp at ended
        omega
      rw [evalStep_eq_ok, getOp_append ok] at stepped
      obtain ⟨-, -, -, -, rfl, run⟩ := stepped
      obtain ⟨pushed', rfl, stacks'⟩ := runInstruction_pushDrop step (by exact onStacks) run
      exact ih rest balanced' (getOp_pc_le ok) (by omega) stacks' later
    · exact atEnd parsed balanced (by omega) enough onStacks ran

/-- A script behind a stretch that pushes and drops all it pushes: `EvalScript` succeeds
on the whole only where it succeeds on the script alone, with the same stack, provided
the signature checker does not look at the script code. -/
theorem evalScript_append {crypto : ScriptCrypto} {flags : VerifyFlags}
    {checker : SignatureChecker} {sigversion : SigVersion}
    (ignores : checker.IgnoresScriptCode) {P D : Script} (pushesAndDrops : PushesAndDrops P)
    {stack stack' : Stack}
    (ran : evalScript crypto stack (P ++ D) flags checker sigversion = .ok stack') :
    evalScript crypto stack D flags checker sigversion = .ok stack' := by
  obtain ⟨ops, parsed, balanced⟩ := pushesAndDrops
  unfold evalScript at ran ⊢
  have fits : ¬ D.length > MAX_SCRIPT_SIZE := by
    intro tooLong
    have : (P ++ D).length > MAX_SCRIPT_SIZE := by
      rw [List.length_append]
      omega
    rw [if_pos this] at ran
    cases ran
  split_ifs at ran
  rw [if_neg fits]
  simp only [Except.bind_eq_ok] at ran ⊢
  obtain ⟨mEnd, loop, closed⟩ := ran
  -- the stretch hands the rest of the script the stacks it started from
  have start : (⟨⟨stack, [], []⟩, 0, 0⟩ : Machine).stacks = ⟨[] ++ stack, [], []⟩ := rfl
  have balanced : pushDropBalance ops ([] : Stack).length = some 0 := balanced
  obtain ⟨F', m', enough, stacks', rest⟩ :=
    evalLoop_pushDrop parsed balanced (Nat.zero_le _) (by simp) start loop
  -- from there on the whole runs as the script alone, from a machine that counted no ops
  rw [← Nat.add_zero P.length] at rest
  obtain ⟨mEnd₂, loop₂, below⟩ :=
    evalLoop_append_right ignores (⟨stacks'.symm, Nat.zero_le _⟩ : Machine.Below ⟨⟨stack, [], []⟩, 0, 0⟩ m') rest
  rw [evalLoop_fuel (by omega)] at loop₂
  refine ⟨mEnd₂, by simpa using loop₂, ?_⟩
  rw [below.stacks]
  exact closed

end MFCoin.Script
