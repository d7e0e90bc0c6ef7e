/-
Module: MFCoin.Kernel.StakeModifier
Purpose: The block selection of `ComputeNextStakeModifier` (src/src/kernel.cpp):
  `SelectBlockFromCandidates` with its `NULL` marks for selected entries, its early break
  and its selection hashes memoised in the entries' second field, the interval sections of
  `GetStakeModifierSelectionIntervalSection`, and the 64 selection rounds that write one
  entropy bit each. The memoised loop chooses what a loop recomputing every hash chooses,
  and on a timestamp-sorted vector every round takes the least selection hash among the
  blocks the round may choose from, the earlier one on a tie.
Trusted boundary: the selection hash `Hash(hashProof || nStakeModifierPrev)` is a function
  `hash` of the proof hash and the previous modifier.
Main exports: SelectionBlock, selectionHash, selectLoop, selectBlockFromCandidates,
  selectionIntervalSection, selectionRounds, computeSelection, scanPlain, MemoValid,
  IsSelection, SelectionRun, selectLoop_choice, selectBlockFromCandidates_spec,
  selectionRounds_spec, computeSelection_spec
-/
import MFCoin.Primitives.ArithUint256
import Mathlib.Data.List.Basic

namespace MFCoin.Kernel

open MFCoin.Arith

/-! ### Candidates -/

/-- The fields of `CBlockIndex` the selection reads. -/
structure SelectionBlock where
  nTime : UInt32
  IsProofOfStake : Bool
  hashProofOfStake : Nat
  blockHash : Nat
  stakeEntropyBit : Bool
deriving DecidableEq, Repr

/-- `CBlockIndex::GetBlockTime`. -/
def SelectionBlock.getBlockTime (block : SelectionBlock) : Int := block.nTime.toNat

/-- An entry of `vSortedByTimestamp`: the block, `NULL` once selected, and the slot that
memoises its selection hash, `0` while not computed. -/
abbrev CandidateItem := Option SelectionBlock × ArithUint256

/-- `MODIFIER_INTERVAL_RATIO` (src/src/kernel.h). -/
def MODIFIER_INTERVAL_RATIO : Int := 3

/-- `GetStakeModifierSelectionIntervalSection` for `0 ≤ nSection < 64`. -/
def selectionIntervalSection (nStakeModifierInterval : Int) (nSection : Nat) : Int :=
  (nStakeModifierInterval * 63).tdiv (63 + (63 - nSection) * ( MODIFIER_INTERVAL_RATIO - 1))

/-- Position `j` of the vector holds a block not yet selected. -/
def Unselected (blocks : List (Option SelectionBlock)) (j : Nat) : Prop :=
  ∃ block, blocks[j]? = some (some block)

/-- The vector is sorted by time: no block is later than a block after it. -/
def TimeSorted (blocks : List (Option SelectionBlock)) : Prop :=
  blocks.Pairwise fun a b => ∀ x ∈ a, ∀ y ∈ b, x.getBlockTime ≤ y.getBlockTime

theorem TimeSorted.le {blocks : List (Option SelectionBlock)} (sorted : TimeSorted blocks)
    {i j : Nat} (before : i ≤ j) {a b : SelectionBlock} (atI : blocks[i]? = some (some a))
    (atJ : blocks[j]? = some (some b)) : a.getBlockTime ≤ b.getBlockTime := by
  rcases Nat.lt_or_eq_of_le before with earlier | rfl
  · obtain ⟨inI, isA⟩ := List.getElem?_eq_some_iff.mp atI
    obtain ⟨inJ, isB⟩ := List.getElem?_eq_some_iff.mp atJ
    have ordered := List.pairwise_iff_getElem.mp sorted i j inI inJ earlier
    rw [isA, isB] at ordered
    exact ordered a rfl b rfl
  · rw [atI, Option.some_inj, Option.some_inj] at atJ
    rw [atJ]

section Selection

variable (hash : Nat → UInt64 → ArithUint256) (nStakeModifierPrev : UInt64)

/-- The selection hash of a block: the hash of its proof hash (`hashProofOfStake` for a
proof-of-stake block, the block hash otherwise) and the previous modifier, divided by
`2^32` for proof of stake so that such blocks are favoured. -/
def selectionHash (block : SelectionBlock) : ArithUint256 :=
  let hashProof := if block.IsProofOfStake then block.hashProofOfStake else block.blockHash
  let selection := hash hashProof nStakeModifierPrev
  if block.IsProofOfStake then selection >>> 32 else selection

variable (nSelectionIntervalStop : Int)

/-- The loop of `SelectBlockFromCandidates` from position `pos`, with `itemSelected` as the
position and slot of the entry chosen so far. It returns the entries with the slots it
filled and the final choice. -/
def selectLoop :
    List CandidateItem → Nat → Option (Nat × ArithUint256) →
      List CandidateItem × Option (Nat × ArithUint256)
  | [], _, itemSelected => ([], itemSelected)
  | (none, slot) :: rest, pos, itemSelected =>
    -- an entry already selected is skipped
    Prod.map ((none, slot) :: ·) id (selectLoop rest (pos + 1) itemSelected)
  | (some block, slot) :: rest, pos, none =>
    -- the first entry not yet selected is chosen whatever its time
    if slot = 0 then
      Prod.map ((some block, selectionHash hash nStakeModifierPrev block) :: ·) id
        (selectLoop rest (pos + 1) (some (pos, selectionHash hash nStakeModifierPrev block)))
    else Prod.map ((some block, slot) :: ·) id (selectLoop rest (pos + 1) (some (pos, slot)))
  | (some block, slot) :: rest, pos, some (selected, best) =>
    if block.getBlockTime > nSelectionIntervalStop then
      ((some block, slot) :: rest, some (selected, best))
    else if slot < best then
      if slot = 0 then
        Prod.map ((some block, selectionHash hash nStakeModifierPrev block) :: ·) id
          (selectLoop rest (pos + 1)
            (if selectionHash hash nStakeModifierPrev block ≥ best then some (selected, best)
            else some (pos, selectionHash hash nStakeModifierPrev block)))
      else Prod.map ((some block, slot) :: ·) id (selectLoop rest (pos + 1) (some (pos, slot)))
    else Prod.map ((some block, slot) :: ·) id (selectLoop rest (pos + 1) (some (selected, best)))

/-- `SelectBlockFromCandidates`: the vector with its slots filled and the chosen entry set
to `NULL`, and the chosen block; `none` where the source returns `false`. -/
def selectBlockFromCandidates (items : List CandidateItem) :
    List CandidateItem × Option SelectionBlock :=
  let scanned := selectLoop hash nStakeModifierPrev nSelectionIntervalStop items 0 none
  match scanned.2 with
  | none => (scanned.1, none)
  | some (pos, _) =>
    (scanned.1.modify pos (fun item => (none, item.2)), (scanned.1[pos]?).bind Prod.fst)

/-! ### The memo against recomputation -/

/-- The loop of `SelectBlockFromCandidates` without the memo: every hash is computed where
it is compared. -/
def scanPlain :
    List (Option SelectionBlock) → Nat → Option (Nat × ArithUint256) → Option (Nat × ArithUint256)
  | [], _, itemSelected => itemSelected
  | none :: rest, pos, itemSelected => scanPlain rest (pos + 1) itemSelected
  | some block :: rest, pos, none =>
    scanPlain rest (pos + 1) (some (pos, selectionHash hash nStakeModifierPrev block))
  | some block :: rest, pos, some (selected, best) =>
    if block.getBlockTime > nSelectionIntervalStop then some (selected, best)
    else if selectionHash hash nStakeModifierPrev block < best then
      scanPlain rest (pos + 1) (some (pos, selectionHash hash nStakeModifierPrev block))
    else scanPlain rest (pos + 1) (some (selected, best))

/-- The slot of an entry not yet selected is `0` or the entry's selection hash. -/
def SlotValid (item : CandidateItem) : Prop :=
  ∀ block, item.1 = some block → item.2 = 0 ∨ item.2 = selectionHash hash nStakeModifierPrev block

/-- Every slot of the vector is valid. -/
def MemoValid (items : List CandidateItem) : Prop :=
  ∀ item ∈ items, SlotValid hash nStakeModifierPrev item

@[simp] theorem memoValid_nil : MemoValid hash nStakeModifierPrev [] := by
  simp [MemoValid]

@[simp] theorem memoValid_cons {item : CandidateItem} {items : List CandidateItem} :
    MemoValid hash nStakeModifierPrev (item :: items) ↔
      SlotValid hash nStakeModifierPrev item ∧ MemoValid hash nStakeModifierPrev items := by
  simp [MemoValid]

theorem slotValid_none (slot : ArithUint256) : SlotValid hash nStakeModifierPrev (none, slot) := by
  simp [SlotValid]

theorem slotValid_hash (block : SelectionBlock) :
    SlotValid hash nStakeModifierPrev (some block, selectionHash hash nStakeModifierPrev block) := by
  simp [SlotValid]

/-- The loop only fills slots: the blocks and their `NULL` marks stay. -/
theorem selectLoop_blocks (items : List CandidateItem) (pos : Nat)
    (itemSelected : Option (Nat × ArithUint256)) :
    (selectLoop hash nStakeModifierPrev nSelectionIntervalStop items pos itemSelected).1.map
      Prod.fst = items.map Prod.fst := by
  fun_induction selectLoop hash nStakeModifierPrev nSelectionIntervalStop items pos
    itemSelected <;> simp_all

/-- A slot is filled only with the entry's selection hash. -/
theorem selectLoop_memoValid {items : List CandidateItem}
    (valid : MemoValid hash nStakeModifierPrev items) (pos : Nat)
    (itemSelected : Option (Nat × ArithUint256)) :
    MemoValid hash nStakeModifierPrev
      (selectLoop hash nStakeModifierPrev nSelectionIntervalStop items pos itemSelected).1 := by
  fun_induction selectLoop hash nStakeModifierPrev nSelectionIntervalStop items pos
    itemSelected with
  | case1 => simp
  | case2 slot rest pos itemSelected ih =>
    simp only [memoValid_cons, Prod.map_fst] at valid ⊢
    exact ⟨slotValid_none hash nStakeModifierPrev slot, ih valid.2⟩
  | case3 block rest pos ih =>
    simp only [memoValid_cons, Prod.map_fst] at valid ⊢
    exact ⟨slotValid_hash hash nStakeModifierPrev block, ih valid.2⟩
  | case4 block slot rest pos _ ih =>
    simp only [memoValid_cons, Prod.map_fst] at valid ⊢
    exact ⟨valid.1, ih valid.2⟩
  | case5 => exact valid
  | case6 block rest pos selected best _ _ ih =>
    simp only [memoValid_cons, Prod.map_fst] at valid ⊢
    exact ⟨slotValid_hash hash nStakeModifierPrev block, ih valid.2⟩
  | case7 block slot rest pos selected best _ _ _ ih =>
    simp only [memoValid_cons, Prod.map_fst] at valid ⊢
    exact ⟨valid.1, ih valid.2⟩
  | case8 block slot rest pos selected best _ _ ih =>
    simp only [memoValid_cons, Prod.map_fst] at valid ⊢
    exact ⟨valid.1, ih valid.2⟩

/-- A filled slot is the selection hash. -/
theorem SlotValid.eq_of_ne_zero {block : SelectionBlock} {slot : ArithUint256}
    (valid : SlotValid hash nStakeModifierPrev (some block, slot)) (filled : slot ≠ 0) :
    slot = selectionHash hash nStakeModifierPrev block :=
  (valid block rfl).resolve_left filled

/-- With valid slots, the memoised loop chooses what the loop that recomputes chooses. -/
theorem selectLoop_choice {items : List CandidateItem}
    (valid : MemoValid hash nStakeModifierPrev items) (pos : Nat)
    (itemSelected : Option (Nat × ArithUint256)) :
    (selectLoop hash nStakeModifierPrev nSelectionIntervalStop items pos itemSelected).2 =
      scanPlain hash nStakeModifierPrev nSelectionIntervalStop (items.map Prod.fst) pos
        itemSelected := by
  fun_induction selectLoop hash nStakeModifierPrev nSelectionIntervalStop items pos
    itemSelected with
  | case1 => rfl
  | case2 slot rest pos itemSelected ih =>
    simp only [memoValid_cons] at valid
    simp [scanPlain, ih valid.2]
  | case3 block rest pos ih =>
    simp only [memoValid_cons] at valid
    simp [scanPlain, ih valid.2]
  | case4 block slot rest pos filled ih =>
    simp only [memoValid_cons] at valid
    have known := SlotValid.eq_of_ne_zero hash nStakeModifierPrev valid.1 filled
    subst known
    simp [scanPlain, ih valid.2]
  | case5 block slot rest pos selected best late => simp [scanPlain, late]
  | case6 block rest pos selected best notLate _ ih =>
    -- an empty slot below `best`: the hash is computed and compared as the plain loop does
    simp only [memoValid_cons] at valid
    have step := ih valid.2
    by_cases smaller : selectionHash hash nStakeModifierPrev block < best
    · have notAbove : ¬best ≤ selectionHash hash nStakeModifierPrev block :=
        BitVec.not_le.mpr smaller
      simp only [ge_iff_le, notAbove, if_false] at step
      simp [scanPlain, step, notLate, smaller, notAbove]
    · have above : best ≤ selectionHash hash nStakeModifierPrev block := BitVec.not_lt.mp smaller
      simp only [ge_iff_le, above, if_true] at step
      simp [scanPlain, step, notLate, smaller, above]
  | case7 block slot rest pos selected best notLate smaller filled ih =>
    simp only [memoValid_cons] at valid
    have known := SlotValid.eq_of_ne_zero hash nStakeModifierPrev valid.1 filled
    subst known
    simp [scanPlain, ih valid.2, notLate, smaller]
  | case8 block slot rest pos selected best notLate notSmaller ih =>
    -- a slot not below `best`: an empty one means `best` is `0`, and no hash is below it
    simp only [memoValid_cons] at valid
    have larger : ¬selectionHash hash nStakeModifierPrev block < best := by
      rcases valid.1 block rfl with empty | known
      · subst empty
        have zero : best = 0 := by
          rw [BitVec.lt_def] at notSmaller
          apply BitVec.eq_of_toNat_eq
          simp only [BitVec.toNat_ofNat, Nat.zero_mod, BitVec.ofNat_eq_ofNat] at notSmaller ⊢
          omega
        rw [zero, BitVec.lt_def]
        simp
      · rwa [← known]
    simp [scanPlain, ih valid.2, notLate, larger]

/-- Marking the chosen entry `NULL` keeps its slot and changes no other entry. -/
theorem blocks_modify (items : List CandidateItem) (p : Nat) :
    (items.modify p (fun item => (none, item.2))).map Prod.fst =
      (items.map Prod.fst).set p none := by
  apply List.ext_getElem?
  intro j
  simp only [List.getElem?_map, List.getElem?_modify, List.getElem?_set, List.length_map]
  by_cases same : p = j
  · subst same
    cases found : items[p]? with
    | none => simp [List.getElem?_eq_none_iff.mp found]
    | some item => simp [(List.getElem?_eq_some_iff.mp found).1]
  · simp [same]

theorem memoValid_modify {items : List CandidateItem}
    (valid : MemoValid hash nStakeModifierPrev items) (p : Nat) :
    MemoValid hash nStakeModifierPrev (items.modify p (fun item => (none, item.2))) := by
  intro item mem
  rw [List.modify_eq_set] at mem
  rcases List.mem_or_eq_of_mem_set mem with old | rfl
  · exact valid item old
  · exact slotValid_none hash nStakeModifierPrev _

/-! ### What a round chooses -/

/-- The blocks a round may choose: those not yet selected with a time up to the stop, and
the earliest one not yet selected. -/
def Eligible (blocks : List (Option SelectionBlock)) (j : Nat) (block : SelectionBlock) :
    Prop :=
  blocks[j]? = some (some block) ∧
    (block.getBlockTime ≤ nSelectionIntervalStop ∨ ∀ k < j, ¬Unselected blocks k)

/-- Position `p`, holding `block`, is the round's choice: it may be chosen, its selection
hash is the least, and it is earlier than every other block of that hash. -/
def IsSelection (blocks : List (Option SelectionBlock)) (p : Nat) (block : SelectionBlock) :
    Prop :=
  Eligible nSelectionIntervalStop blocks p block ∧
    ∀ j other, Eligible nSelectionIntervalStop blocks j other →
      selectionHash hash nStakeModifierPrev block ≤ selectionHash hash nStakeModifierPrev other ∧
        (j < p →
          selectionHash hash nStakeModifierPrev block < selectionHash hash nStakeModifierPrev other)

/-- The plain loop once it holds a choice: over a sorted vector it ends with the round's
choice, provided the choice so far is the least among the eligible blocks before `pos`.
Induction on the entries after `pos`, with the entries before it growing. -/
theorem scanPlain_selected (rest pre : List (Option SelectionBlock))
    (sorted : TimeSorted (pre ++ rest)) {p : Nat} {block : SelectionBlock}
    (inPre : p < pre.length) (eligible : Eligible nSelectionIntervalStop (pre ++ rest) p block)
    (least : ∀ j other, j < pre.length → Eligible nSelectionIntervalStop (pre ++ rest) j other →
      selectionHash hash nStakeModifierPrev block ≤ selectionHash hash nStakeModifierPrev other ∧
        (j < p →
          selectionHash hash nStakeModifierPrev block < selectionHash hash nStakeModifierPrev other)) :
    ∃ p' block', scanPlain hash nStakeModifierPrev nSelectionIntervalStop rest pre.length
        (some (p, selectionHash hash nStakeModifierPrev block)) =
        some (p', selectionHash hash nStakeModifierPrev block') ∧
      IsSelection hash nStakeModifierPrev nSelectionIntervalStop (pre ++ rest) p' block' := by
  induction rest generalizing pre p block with
  | nil =>
    refine ⟨p, block, rfl, eligible, fun j other chosen => least j other ?_ chosen⟩
    have inList := (List.getElem?_eq_some_iff.mp chosen.1).1
    simpa using inList
  | cons entry rest ih =>
    have atPos : (pre ++ entry :: rest)[pre.length]? = some entry := by simp
    have regroup : pre ++ entry :: rest = (pre ++ [entry]) ++ rest := by simp
    cases entry with
    | none =>
      -- a `NULL` entry is not eligible, and the loop passes over it
      rw [regroup] at sorted eligible least
      obtain ⟨p', block', run, chosen⟩ := ih (pre ++ [none]) sorted (by simp; omega) eligible
        (fun j other before other_eligible => by
          rcases Nat.lt_succ_iff_lt_or_eq.mp (by simpa using before) with before | rfl
          · exact least j other before other_eligible
          · have := other_eligible.1
            simp at this)
      refine ⟨p', block', ?_, by rwa [regroup]⟩
      simpa [scanPlain] using run
    | some current =>
      by_cases late : current.getBlockTime > nSelectionIntervalStop
      · -- the break: every block from `pos` on is later than the stop, and not the earliest
        refine ⟨p, block, by simp [scanPlain, late], eligible, fun j other chosen => ?_⟩
        by_cases before : j < pre.length
        · exact least j other before chosen
        · exfalso
          have after := TimeSorted.le sorted (Nat.le_of_not_lt before) atPos chosen.1
          rcases chosen.2 with onTime | earliest
          · omega
          · exact earliest p (by omega) ⟨block, eligible.1⟩
      · by_cases smaller : selectionHash hash nStakeModifierPrev current <
            selectionHash hash nStakeModifierPrev block
        · -- the current block becomes the choice
          have currentEligible : Eligible nSelectionIntervalStop (pre ++ some current :: rest)
              pre.length current := ⟨atPos, .inl (by omega)⟩
          rw [regroup] at sorted currentEligible least
          obtain ⟨p', block', run, chosen⟩ := ih (pre ++ [some current]) sorted (by simp)
            currentEligible (fun j other before other_eligible => by
              rcases Nat.lt_succ_iff_lt_or_eq.mp (by simpa using before) with before | rfl
              · have older := (least j other before other_eligible).1
                have below : selectionHash hash nStakeModifierPrev current <
                    selectionHash hash nStakeModifierPrev other := by
                  rw [BitVec.lt_def] at smaller ⊢
                  rw [BitVec.le_def] at older
                  omega
                exact ⟨BitVec.le_of_lt below, fun _ => below⟩
              · have same := other_eligible.1
                simp at same
                subst same
                exact ⟨BitVec.le_refl _, fun earlier => absurd earlier (Nat.lt_irrefl _)⟩)
          refine ⟨p', block', ?_, by rwa [regroup]⟩
          simpa [scanPlain, late, smaller] using run
        · -- the choice stays; the current block is no better and comes later
          rw [regroup] at sorted eligible least
          obtain ⟨p', block', run, chosen⟩ := ih (pre ++ [some current]) sorted
            (by simp; omega) eligible (fun j other before other_eligible => by
              rcases Nat.lt_succ_iff_lt_or_eq.mp (by simpa using before) with before | rfl
              · exact least j other before other_eligible
              · have same := other_eligible.1
                simp at same
                subst same
                exact ⟨BitVec.not_lt.mp smaller, fun earlier => by omega⟩)
          refine ⟨p', block', ?_, by rwa [regroup]⟩
          simpa [scanPlain, late, smaller] using run

/-- The plain loop from its start: it passes the `NULL` entries, takes the first block not
yet selected whatever its time, and from there ends with the round's choice. -/
theorem scanPlain_start (rest pre : List (Option SelectionBlock))
    (sorted : TimeSorted (pre ++ rest))
    (allSelected : ∀ j < pre.length, ¬Unselected (pre ++ rest) j)
    (remaining : ∃ j, Unselected (pre ++ rest) j) :
    ∃ p block, scanPlain hash nStakeModifierPrev nSelectionIntervalStop rest pre.length none =
        some (p, selectionHash hash nStakeModifierPrev block) ∧
      IsSelection hash nStakeModifierPrev nSelectionIntervalStop (pre ++ rest) p block := by
  induction rest generalizing pre with
  | nil =>
    obtain ⟨j, block, found⟩ := remaining
    have inList := (List.getElem?_eq_some_iff.mp found).1
    exact absurd ⟨block, found⟩ (allSelected j (by simpa using inList))
  | cons entry rest ih =>
    have atPos : (pre ++ entry :: rest)[pre.length]? = some entry := by simp
    have regroup : pre ++ entry :: rest = (pre ++ [entry]) ++ rest := by simp
    cases entry with
    | none =>
      rw [regroup] at sorted allSelected remaining atPos
      obtain ⟨p, block, run, chosen⟩ := ih (pre ++ [none]) sorted (fun j before => by
          rcases Nat.lt_succ_iff_lt_or_eq.mp (by simpa using before) with before | rfl
          · exact allSelected j before
          · rintro ⟨block, found⟩
            rw [atPos] at found
            cases found) remaining
      exact ⟨p, block, by simpa [scanPlain] using run, by rwa [regroup]⟩
    | some first =>
      -- the first block not yet selected is the choice so far, and no block lies before it
      have eligible : Eligible nSelectionIntervalStop (pre ++ some first :: rest) pre.length
          first := ⟨atPos, .inr allSelected⟩
      rw [regroup] at sorted eligible allSelected atPos
      obtain ⟨p, block, run, chosen⟩ := scanPlain_selected hash nStakeModifierPrev
        nSelectionIntervalStop rest (pre ++ [some first]) sorted (by simp) eligible
        (fun j other before other_eligible => by
          rcases Nat.lt_succ_iff_lt_or_eq.mp (by simpa using before) with before | rfl
          · exact absurd ⟨other, other_eligible.1⟩ (allSelected j before)
          · have same := other_eligible.1
            rw [atPos, Option.some_inj, Option.some_inj] at same
            subst same
            exact ⟨BitVec.le_refl _, fun earlier => absurd earlier (Nat.lt_irrefl _)⟩)
      exact ⟨p, block, by simpa [scanPlain] using run, by rwa [regroup]⟩

/-- One call of `SelectBlockFromCandidates` on a sorted vector with valid slots and a block
not yet selected: it returns the round's choice, sets that entry to `NULL`, and leaves the
slots valid. -/
theorem selectBlockFromCandidates_spec {items : List CandidateItem}
    (valid : MemoValid hash nStakeModifierPrev items) (sorted : TimeSorted (items.map Prod.fst))
    (remaining : ∃ j, Unselected (items.map Prod.fst) j) :
    ∃ p block items',
      selectBlockFromCandidates hash nStakeModifierPrev nSelectionIntervalStop items =
        (items', some block) ∧
      IsSelection hash nStakeModifierPrev nSelectionIntervalStop (items.map Prod.fst) p block ∧
      items'.map Prod.fst = (items.map Prod.fst).set p none ∧
      MemoValid hash nStakeModifierPrev items' := by
  obtain ⟨p, block, run, chosen⟩ := scanPlain_start hash nStakeModifierPrev
    nSelectionIntervalStop (items.map Prod.fst) [] (by simpa using sorted) (by simp)
    (by simpa using remaining)
  simp only [List.nil_append, List.length_nil] at run chosen
  have choice := selectLoop_choice hash nStakeModifierPrev nSelectionIntervalStop valid 0 none
  rw [run] at choice
  have blocks := selectLoop_blocks hash nStakeModifierPrev nSelectionIntervalStop items 0 none
  have filled := selectLoop_memoValid hash nStakeModifierPrev nSelectionIntervalStop valid 0 none
  dsimp only [selectBlockFromCandidates]
  generalize selectLoop hash nStakeModifierPrev nSelectionIntervalStop items 0 none = scanned
    at choice blocks filled ⊢
  -- the chosen entry still holds its block after the loop
  have atChoice : scanned.1[p]?.bind Prod.fst = some block := by
    have found := chosen.1.1
    rw [← blocks, List.getElem?_map] at found
    cases entry : scanned.1[p]? with
    | none => simp [entry] at found
    | some item => simp_all
  refine ⟨p, block, scanned.1.modify p (fun item => (none, item.2)), ?_, chosen, ?_, ?_⟩
  · simp [choice, atChoice]
  · rw [blocks_modify, blocks]
  · exact memoValid_modify hash nStakeModifierPrev filled p

end Selection

/-! ### The vector between rounds -/

/-- The number of blocks not yet selected. -/
def unselectedCount (blocks : List (Option SelectionBlock)) : Nat := blocks.countP Option.isSome

theorem exists_unselected {blocks : List (Option SelectionBlock)}
    (positive : 0 < unselectedCount blocks) : ∃ j, Unselected blocks j := by
  obtain ⟨entry, mem, isSome⟩ := List.countP_pos_iff.mp positive
  obtain ⟨j, found⟩ := List.mem_iff_getElem?.mp mem
  cases entry with
  | none => cases isSome
  | some block => exact ⟨j, block, found⟩

/-- Marking a block `NULL` leaves one block fewer to select. -/
theorem unselectedCount_set {blocks : List (Option SelectionBlock)} {p : Nat}
    {block : SelectionBlock} (found : blocks[p]? = some (some block)) :
    unselectedCount (blocks.set p none) + 1 = unselectedCount blocks := by
  obtain ⟨inList, isBlock⟩ := List.getElem?_eq_some_iff.mp found
  have positive : 0 < unselectedCount blocks :=
    List.countP_pos_iff.mpr ⟨some block, List.mem_iff_getElem?.mpr ⟨p, found⟩, rfl⟩
  unfold unselectedCount at positive ⊢
  rw [List.countP_set inList, isBlock]
  simp only [Option.isSome_some, if_true, Option.isSome_none, Bool.false_eq_true, if_false]
  omega

/-- A block not yet selected after a `NULL` mark was not selected before, and is not the
marked one. -/
theorem unselected_of_set {blocks : List (Option SelectionBlock)} {p q : Nat}
    (found : Unselected (blocks.set p none) q) : Unselected blocks q ∧ q ≠ p := by
  obtain ⟨block, atQ⟩ := found
  rw [List.getElem?_set] at atQ
  by_cases same : p = q
  · rw [if_pos same] at atQ
    split at atQ <;> simp at atQ
  · rw [if_neg same] at atQ
    exact ⟨⟨block, atQ⟩, Ne.symm same⟩

/-- `NULL` marks keep the vector sorted. -/
theorem TimeSorted.set_none {blocks : List (Option SelectionBlock)} (sorted : TimeSorted blocks)
    (p : Nat) : TimeSorted (blocks.set p none) := by
  unfold TimeSorted at sorted ⊢
  rw [List.pairwise_iff_getElem] at sorted ⊢
  intro i j inI inJ earlier x atI y atJ
  simp only [List.getElem_set] at atI atJ
  split at atI
  · cases atI
  · split at atJ
    · cases atJ
    · exact sorted i j (by simpa using inI) (by simpa using inJ) earlier x atI y atJ

/-- The selection rounds of `ComputeNextStakeModifier` from round `nRound`, `rounds` of
them left: each adds an interval section to the stop, selects a block and writes its
entropy bit at bit `nRound`. The result is the selected blocks and the new modifier;
`none` where the source fails with "unable to select block". -/
def selectionRounds (hash : Nat → UInt64 → ArithUint256) (nStakeModifierPrev : UInt64)
    (nStakeModifierInterval : Int) :
    (rounds nRound : Nat) → Int → List CandidateItem → UInt64 →
      Option (List SelectionBlock × UInt64)
  | 0, _, _, _, nStakeModifierNew => some ([], nStakeModifierNew)
  | rounds + 1, nRound, nSelectionIntervalStop, items, nStakeModifierNew =>
    let stop := nSelectionIntervalStop + selectionIntervalSection nStakeModifierInterval nRound
    match selectBlockFromCandidates hash nStakeModifierPrev stop items with
    | (_, none) => none
    | (items', some block) =>
      let bit : UInt64 := if block.stakeEntropyBit then 1 else 0
      (selectionRounds hash nStakeModifierPrev nStakeModifierInterval rounds (nRound + 1) stop
          items' (nStakeModifierNew ||| bit <<< nRound.toUInt64)).map
        fun result => (block :: result.1, result.2)

/-- The selection part of `ComputeNextStakeModifier`, on the candidates sorted by
timestamp: `min(64, size)` rounds from `nSelectionIntervalStart`, every slot starting at
`0`. -/
def computeSelection (hash : Nat → UInt64 → ArithUint256) (nStakeModifierPrev : UInt64)
    (nStakeModifierInterval nSelectionIntervalStart : Int) (sorted : List SelectionBlock) :
    Option (List SelectionBlock × UInt64) :=
  selectionRounds hash nStakeModifierPrev nStakeModifierInterval (min 64 sorted.length) 0
    nSelectionIntervalStart (sorted.map fun block => (some block, 0)) 0

/-! ### The rounds against their specification -/

section Rounds

variable (hash : Nat → UInt64 → ArithUint256) (nStakeModifierPrev : UInt64)
  (nStakeModifierInterval : Int)

/-- The choices of the rounds from `nRound` on: round by round, the position holding the
selected block is the round's choice in the vector whose earlier choices are `NULL`, with
the stop extended by the round's section. No hash is memoised here. -/
def SelectionRun :
    List (Option SelectionBlock) → Nat → Int → List Nat → List SelectionBlock → Prop
  | _, _, _, [], [] => True
  | blocks, nRound, stop, p :: positions, block :: selected =>
    IsSelection hash nStakeModifierPrev
        (stop + selectionIntervalSection nStakeModifierInterval nRound) blocks p block ∧
      SelectionRun (blocks.set p none) (nRound + 1)
        (stop + selectionIntervalSection nStakeModifierInterval nRound) positions selected
  | _, _, _, _, _ => False

/-- Every position a run chooses holds a block not yet selected at its start. -/
theorem SelectionRun.unselected {blocks : List (Option SelectionBlock)} {nRound : Nat}
    {stop : Int} {positions : List Nat} {selected : List SelectionBlock}
    (run : SelectionRun hash nStakeModifierPrev nStakeModifierInterval blocks nRound stop
      positions selected) {q : Nat} (chosen : q ∈ positions) : Unselected blocks q := by
  induction positions generalizing blocks nRound stop selected with
  | nil => cases chosen
  | cons p positions ih =>
    cases selected with
    | nil => cases run
    | cons block selected =>
      rcases List.mem_cons.mp chosen with rfl | later
      · exact ⟨block, run.1.1.1⟩
      · exact (unselected_of_set (ih run.2 later)).1

/-- A run never chooses a position twice: a chosen entry is `NULL` in every later round. -/
theorem SelectionRun.nodup {blocks : List (Option SelectionBlock)} {nRound : Nat}
    {stop : Int} {positions : List Nat} {selected : List SelectionBlock}
    (run : SelectionRun hash nStakeModifierPrev nStakeModifierInterval blocks nRound stop
      positions selected) : positions.Nodup := by
  induction positions generalizing blocks nRound stop selected with
  | nil => exact List.nodup_nil
  | cons p positions ih =>
    cases selected with
    | nil => cases run
    | cons block selected =>
      refine List.nodup_cons.mpr ⟨fun again => ?_, ih run.2⟩
      exact (unselected_of_set (SelectionRun.unselected hash nStakeModifierPrev
        nStakeModifierInterval run.2 again)).2 rfl

/-- With valid slots, a sorted vector and at least `rounds` blocks not yet selected, the
rounds all succeed and make the choices of the specification. Induction on the rounds;
each round's step is `selectBlockFromCandidates_spec`. -/
theorem selectionRounds_spec (rounds : Nat) {nRound : Nat} {stop : Int}
    {items : List CandidateItem} {nStakeModifierNew : UInt64}
    (valid : MemoValid hash nStakeModifierPrev items) (sorted : TimeSorted (items.map Prod.fst))
    (enough : rounds ≤ unselectedCount (items.map Prod.fst)) :
    ∃ positions selected nStakeModifier,
      selectionRounds hash nStakeModifierPrev nStakeModifierInterval rounds nRound stop items
          nStakeModifierNew = some (selected, nStakeModifier) ∧
        selected.length = rounds ∧
        SelectionRun hash nStakeModifierPrev nStakeModifierInterval (items.map Prod.fst) nRound
          stop positions selected := by
  induction rounds generalizing nRound stop items nStakeModifierNew with
  | zero => exact ⟨[], [], nStakeModifierNew, rfl, rfl, trivial⟩
  | succ rounds ih =>
    obtain ⟨p, block, items', call, chosen, marked, valid'⟩ :=
      selectBlockFromCandidates_spec hash nStakeModifierPrev
        (stop + selectionIntervalSection nStakeModifierInterval nRound) valid sorted
        (exists_unselected (by omega))
    have sorted' : TimeSorted (items'.map Prod.fst) := by
      rw [marked]
      exact sorted.set_none p
    have enough' : rounds ≤ unselectedCount (items'.map Prod.fst) := by
      have fewer := unselectedCount_set chosen.1.1
      rw [marked]
      omega
    obtain ⟨positions, selected, nStakeModifier, run, length, spec⟩ :=
      @ih (nRound + 1) (stop + selectionIntervalSection nStakeModifierInterval nRound) items'
        (nStakeModifierNew ||| (if block.stakeEntropyBit then 1 else 0) <<< nRound.toUInt64)
        valid' sorted' enough'
    refine ⟨p :: positions, block :: selected, nStakeModifier, ?_, by simp [length], chosen,
      by rwa [← marked]⟩
    simp [selectionRounds, call, run]

end Rounds

/-- The selection of `ComputeNextStakeModifier` on every timestamp-sorted candidate vector:
all `min(64, size)` rounds succeed, no position is chosen twice, and every round chooses,
among the blocks not yet selected with a time up to its stop (or the earliest block not
yet selected), the one of least selection hash, the earlier on a tie; the specification
recomputes every hash, the source memoises them. -/
theorem computeSelection_spec (hash : Nat → UInt64 → ArithUint256) (nStakeModifierPrev : UInt64)
    (nStakeModifierInterval nSelectionIntervalStart : Int) {sorted : List SelectionBlock}
    (timeSorted : sorted.Pairwise fun a b => a.getBlockTime ≤ b.getBlockTime) :
    ∃ positions selected nStakeModifierNew,
      computeSelection hash nStakeModifierPrev nStakeModifierInterval nSelectionIntervalStart
          sorted = some (selected, nStakeModifierNew) ∧
        selected.length = min 64 sorted.length ∧ positions.Nodup ∧
        SelectionRun hash nStakeModifierPrev nStakeModifierInterval (sorted.map some) 0
          nSelectionIntervalStart positions selected := by
  have blocks : (sorted.map fun block => ((some block, 0) : CandidateItem)).map Prod.fst =
      sorted.map some := by simp
  have valid : MemoValid hash nStakeModifierPrev
      (sorted.map fun block => ((some block, 0) : CandidateItem)) := by
    intro item mem
    obtain ⟨block, _, rfl⟩ := List.mem_map.mp mem
    exact fun _ _ => .inl rfl
  have ordered : TimeSorted (sorted.map some) := by
    unfold TimeSorted
    rw [List.pairwise_map]
    exact timeSorted.imp fun before x atX y atY => by
      cases atX
      cases atY
      exact before
  have enough : min 64 sorted.length ≤ unselectedCount (sorted.map some) := by
    have every : unselectedCount (sorted.map some) = sorted.length := by
      simp [unselectedCount, List.countP_map, Function.comp_def]
    omega
  rw [← blocks] at ordered enough
  obtain ⟨positions, selected, nStakeModifierNew, run, length, spec⟩ :=
    selectionRounds_spec hash nStakeModifierPrev nStakeModifierInterval (min 64 sorted.length)
      valid ordered enough
  rw [blocks] at spec
  exact ⟨positions, selected, nStakeModifierNew, run, length,
    SelectionRun.nodup hash nStakeModifierPrev nStakeModifierInterval spec, spec⟩

/-- Three candidates, a proof-of-work block between two proof-of-stake blocks, under a
hash of the proof hash and the modifier. -/
theorem computeSelection_spec_three :
    ∃ positions selected nStakeModifierNew,
      computeSelection (fun hashProof modifier => BitVec.ofNat 256 (hashProof * 7 + modifier.toNat))
          5 3600 1000 [⟨1000, true, 3, 30, true⟩, ⟨1100, false, 0, 10, false⟩,
            ⟨1200, true, 5, 50, true⟩] = some (selected, nStakeModifierNew) ∧
        selected.length = min 64 3 ∧ positions.Nodup ∧
        SelectionRun (fun hashProof modifier => BitVec.ofNat 256 (hashProof * 7 + modifier.toNat))
          5 3600 (List.map some [⟨1000, true, 3, 30, true⟩, ⟨1100, false, 0, 10, false⟩,
            ⟨1200, true, 5, 50, true⟩]) 0 1000 positions selected :=
  computeSelection_spec _ _ _ _ (by decide)

end MFCoin.Kernel
