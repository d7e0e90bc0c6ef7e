/-
Module: MFCoin.Coins.Refinement
Purpose: A stack of caches over the coins database stands for one map of coins. The
  `DIRTY` and `FRESH` flags of each cache make promises about the view below it (an entry
  without `DIRTY` shows what is below, below a `FRESH` entry there are no live coins);
  every operation keeps them, and from them `BatchWrite` never finds a `FRESH` child over
  spendable coins, and the top of the stack shows the map the same modifications build.
  `ModifyNewCoins` keeps the promise only under BIP 30, which its comment assumes: called
  on a transaction whose unspent coins a lower cache already holds, it marks them `FRESH`
  and the next flush throws. The other conditions are needed too: a modification of the randpay
  coins removes them from the cache, and one that tells pruned coins apart lets the stack and
  the map diverge.
Trusted boundary: a modification respects `operator==`; the caller never modifies the
  randpay coins, calls `ModifyNewCoins` for a non-coinbase only when the top of the stack
  shows no unspent coins for it, and pops only a cache with one below it.
Main exports: StackSound, CoinsOp.onMap, CoinsOp.Allowed, CoinsReachable,
  coinsStack_refines_map, modifyNewOverUnspent_misappliesFresh, modifyRandpay_losesRandpay,
  modifyUnrespected_diverges
-/
import MFCoin.Coins.Cache
import MFCoin.Lib.KeyedFold

namespace MFCoin.CoinsView

/-! ### Views that agree on live coins -/

/-- Two views report the same coins for every transaction. -/
def LiveEq (f g : TxHash → Option Coins) : Prop :=
  ∀ txid, Coins.live (f txid) = Coins.live (g txid)

theorem LiveEq.rfl {f : TxHash → Option Coins} : LiveEq f f := fun _ => Eq.refl _

theorem LiveEq.symm {f g : TxHash → Option Coins} (fg : LiveEq f g) : LiveEq g f :=
  fun txid => (fg txid).symm

theorem LiveEq.trans {f g h : TxHash → Option Coins} (fg : LiveEq f g) (gh : LiveEq g h) :
    LiveEq f h := fun txid => (fg txid).trans (gh txid)

/-- The coins a read starts from, `CCoins()` when there are none, are the coins read. -/
theorem Coins.live_getD_empty (found : Option Coins) :
    Coins.live (some (found.getD Coins.empty)) = Coins.live found := by
  cases found with
  | none => exact Coins.live_eq_none_of_pruned Coins.empty_isPruned
  | some coins => rfl

theorem viewOf_cons_of_lookup {db : CoinsDB} {layer : CoinsMap} {rest : List CoinsMap}
    {txid : TxHash} {entry : CacheEntry} (found : layer.lookup txid = some entry) :
    viewOf db (layer :: rest) txid = some entry.coins := by
  simp [viewOf, found]

theorem viewOf_cons_of_lookup_none {db : CoinsDB} {layer : CoinsMap} {rest : List CoinsMap}
    {txid : TxHash} (missing : layer.lookup txid = none) :
    viewOf db (layer :: rest) txid = viewOf db rest txid := by
  simp [viewOf, missing]

/-- A cache shows its entry, else what the view below it shows. -/
theorem viewOf_cons (db : CoinsDB) (layer : CoinsMap) (rest : List CoinsMap) :
    viewOf db (layer :: rest) =
      fun txid => ((layer.lookup txid).map CacheEntry.coins).or (viewOf db rest txid) := by
  funext txid
  cases found : layer.lookup txid <;> simp [viewOf, found]

theorem viewOf_empty_cons (db : CoinsDB) (layers : List CoinsMap) :
    viewOf db ((∅ : CoinsMap) :: layers) = viewOf db layers :=
  funext fun txid => viewOf_cons_of_lookup_none (AList.lookup_empty txid)

/-- A cache shows the same over views below it that agree. -/
theorem viewOf_cons_liveEq {db db' : CoinsDB} {layer : CoinsMap} {rest rest' : List CoinsMap}
    (same : LiveEq (viewOf db rest) (viewOf db' rest')) :
    LiveEq (viewOf db (layer :: rest)) (viewOf db' (layer :: rest')) := by
  intro txid
  cases found : layer.lookup txid with
  | some entry => rw [viewOf_cons_of_lookup found, viewOf_cons_of_lookup found]
  | none => rw [viewOf_cons_of_lookup_none found, viewOf_cons_of_lookup_none found, same]

theorem viewOf_cons_eq {db : CoinsDB} {layer : CoinsMap} {rest rest' : List CoinsMap}
    (same : viewOf db rest' = viewOf db rest) :
    viewOf db (layer :: rest') = viewOf db (layer :: rest) := by
  funext txid
  cases found : layer.lookup txid with
  | some entry => rw [viewOf_cons_of_lookup found, viewOf_cons_of_lookup found]
  | none => rw [viewOf_cons_of_lookup_none found, viewOf_cons_of_lookup_none found, same]

/-! ### What the flags promise -/

/-- What the flags of a cache promise about the view below it: an entry without `DIRTY`
shows what the view below shows, and below a `FRESH` entry there are no live coins. -/
structure LayerSound (layer : CoinsMap) (below : TxHash → Option Coins) : Prop where
  clean : ∀ {txid entry}, layer.lookup txid = some entry → entry.dirty = false →
    Coins.live (some entry.coins) = Coins.live (below txid)
  fresh : ∀ {txid entry}, layer.lookup txid = some entry → entry.fresh = true →
    Coins.live (below txid) = none

theorem LayerSound.empty (below : TxHash → Option Coins) : LayerSound ∅ below where
  clean found := by simp [AList.lookup_empty] at found
  fresh found := by simp [AList.lookup_empty] at found

theorem LayerSound.congr {layer : CoinsMap} {below below' : TxHash → Option Coins}
    (sound : LayerSound layer below) (same : LiveEq below below') : LayerSound layer below' where
  clean found dirty := (sound.clean found dirty).trans (same _)
  fresh found isFresh := (same _).symm.trans (sound.fresh found isFresh)

/-- An entry that keeps the promises can be added. -/
theorem LayerSound.insert {layer : CoinsMap} {below : TxHash → Option Coins} {txid : TxHash}
    {entry : CacheEntry} (sound : LayerSound layer below)
    (clean : entry.dirty = false → Coins.live (some entry.coins) = Coins.live (below txid))
    (fresh : entry.fresh = true → Coins.live (below txid) = none) :
    LayerSound (layer.insert txid entry) below where
  clean {u e} found dirty := by
    by_cases here : u = txid
    · subst here
      rw [AList.lookup_insert, Option.some.injEq] at found
      subst found
      exact clean dirty
    · rw [AList.lookup_insert_ne here] at found
      exact sound.clean found dirty
  fresh {u e} found isFresh := by
    by_cases here : u = txid
    · subst here
      rw [AList.lookup_insert, Option.some.injEq] at found
      subst found
      exact fresh isFresh
    · rw [AList.lookup_insert_ne here] at found
      exact sound.fresh found isFresh

theorem LayerSound.erase {layer : CoinsMap} {below : TxHash → Option Coins} {txid : TxHash}
    (sound : LayerSound layer below) : LayerSound (layer.erase txid) below where
  clean {u e} found dirty := by
    by_cases here : u = txid
    · subst here
      rw [AList.lookup_erase] at found
      cases found
    · rw [AList.lookup_erase_ne here] at found
      exact sound.clean found dirty
  fresh {u e} found isFresh := by
    by_cases here : u = txid
    · subst here
      rw [AList.lookup_erase] at found
      cases found
    · rw [AList.lookup_erase_ne here] at found
      exact sound.fresh found isFresh

/-- Every cache of a stack keeps its flags' promises about the caches below it, and each
shows the randpay coins. -/
def StackSound (db : CoinsDB) : List CoinsMap → Prop
  | [] => True
  | layer :: rest => LayerSound layer (viewOf db rest) ∧
      Coins.live (viewOf db (layer :: rest) randpaytx) = some randpayCoins ∧ StackSound db rest

/-- A sound stack stays sound when the layers under its top are replaced by sound layers
that show the same. -/
theorem StackSound.cons_of_view {db : CoinsDB} {layer : CoinsMap} {rest rest' : List CoinsMap}
    (sound : StackSound db (layer :: rest)) (same : viewOf db rest' = viewOf db rest)
    (sound' : StackSound db rest') : StackSound db (layer :: rest') := by
  obtain ⟨top, randpay, -⟩ := sound
  refine ⟨?_, ?_, sound'⟩
  · rw [same]
    exact top
  · rw [viewOf_cons_eq same]
    exact randpay

/-! ### `FetchCoins` -/

theorem fetchCoins_fst (db : CoinsDB) (txid : TxHash) :
    ∀ layers, (fetchCoins db layers txid).1 = viewOf db layers txid
  | [] => rfl
  | layer :: rest => by
    cases found : layer.lookup txid with
    | some entry => simp [fetchCoins, viewOf, found]
    | none =>
      rw [viewOf_cons_of_lookup_none found, ← fetchCoins_fst db txid rest]
      simp only [fetchCoins, found]
      split <;> simp_all

/-- A read caches what it found and changes no view. -/
theorem viewOf_fetchCoins (db : CoinsDB) (txid : TxHash) :
    ∀ layers, viewOf db (fetchCoins db layers txid).2 = viewOf db layers
  | [] => rfl
  | layer :: rest => by
    have below := viewOf_fetchCoins db txid rest
    have read := fetchCoins_fst db txid rest
    cases found : layer.lookup txid with
    | some entry => simp [fetchCoins, found]
    | none =>
      rcases fetched : fetchCoins db rest txid with ⟨_ | coins, rest'⟩
      all_goals
        rw [fetched] at below read
        dsimp only at below read
        simp only [fetchCoins, found, fetched]
      · exact viewOf_cons_eq below
      · funext u
        by_cases here : u = txid
        · subst here
          rw [viewOf_cons_of_lookup (AList.lookup_insert _), viewOf_cons_of_lookup_none found,
            ← read]
        · have missing :
              (layer.insert txid ⟨coins, false, coins.IsPruned⟩).lookup u = layer.lookup u :=
            AList.lookup_insert_ne here
          simp only [viewOf, missing, below]

/-- A read keeps the stack sound: a cached miss shows what is below, `FRESH` only when
that is pruned. -/
theorem fetchCoins_sound (db : CoinsDB) (txid : TxHash) :
    ∀ layers, StackSound db layers → StackSound db (fetchCoins db layers txid).2
  | [], _ => trivial
  | layer :: rest, sound => by
    have restSound := fetchCoins_sound db txid rest sound.2.2
    have below := viewOf_fetchCoins db txid rest
    have read := fetchCoins_fst db txid rest
    have whole := viewOf_fetchCoins db txid (layer :: rest)
    cases found : layer.lookup txid with
    | some entry => simpa [fetchCoins, found] using sound
    | none =>
      rcases fetched : fetchCoins db rest txid with ⟨_ | coins, rest'⟩
      all_goals
        rw [fetched] at below read restSound
        dsimp only at below read restSound
        simp only [fetchCoins, found, fetched] at whole ⊢
      · exact sound.cons_of_view below restSound
      · refine ⟨?_, ?_, restSound⟩
        · rw [below]
          refine sound.1.insert (fun _ => by rw [read]) fun pruned => ?_
          rw [← read]
          exact Coins.live_eq_none_of_pruned pruned
        · rw [whole]
          exact sound.2.1

theorem fetchCoins_ne_nil (db : CoinsDB) (txid : TxHash) {layers : List CoinsMap}
    (nonempty : layers ≠ []) : (fetchCoins db layers txid).2 ≠ [] := by
  match layers, nonempty with
  | layer :: rest, _ =>
    simp only [fetchCoins]
    split
    · simp
    · split <;> simp

/-! ### Modifying the top cache -/

theorem lookup_releaseModifier_ne {layer : CoinsMap} {txid u : TxHash} {entry : CacheEntry}
    (other : u ≠ txid) : (releaseModifier layer txid entry).lookup u = layer.lookup u := by
  unfold releaseModifier
  dsimp only
  split_ifs
  · exact AList.lookup_erase_ne other
  · exact AList.lookup_insert_ne other

/-- Releasing a modifier on the top cache of a sound stack, with an entry that is `DIRTY`
and `FRESH` only over no live coins: the stack stays sound and shows the cleaned coins for
the transaction and the same as before for every other. -/
theorem releaseModifier_spec {db : CoinsDB} {layer : CoinsMap} {rest : List CoinsMap}
    {txid : TxHash} {entry : CacheEntry} (sound : StackSound db (layer :: rest))
    (notRandpay : txid ≠ randpaytx) (dirty : entry.dirty = true)
    (fresh : entry.fresh = true → Coins.live (viewOf db rest txid) = none) :
    StackSound db (releaseModifier layer txid entry :: rest) ∧
      Coins.live (viewOf db (releaseModifier layer txid entry :: rest) txid) =
        Coins.live (some entry.coins.cleanup) ∧
      ∀ u, u ≠ txid →
        viewOf db (releaseModifier layer txid entry :: rest) u = viewOf db (layer :: rest) u := by
  have others : ∀ u, u ≠ txid →
      viewOf db (releaseModifier layer txid entry :: rest) u = viewOf db (layer :: rest) u := by
    intro u other
    simp only [viewOf, lookup_releaseModifier_ne other]
  obtain ⟨top, randpay, restSound⟩ := sound
  refine ⟨⟨?_, ?_, restSound⟩, ?_, others⟩
  · unfold releaseModifier
    dsimp only
    split_ifs
    · exact top.erase
    · exact top.insert (fun clean => by simp [dirty] at clean) fresh
  · rw [others randpaytx notRandpay.symm]
    exact randpay
  · unfold releaseModifier
    dsimp only
    split_ifs with dropped
    · obtain ⟨isFresh, pruned⟩ := dropped
      rw [viewOf_cons_of_lookup_none (AList.lookup_erase _ _), fresh isFresh,
        Coins.live_eq_none_of_pruned pruned]
    · rw [viewOf_cons_of_lookup (AList.lookup_insert _)]

/-- What `ModifyCoins` hands to the modifier: the coins the stack shows, `CCoins()` when
there are none, `FRESH` only over no live coins; the read below changes no view and keeps
the stack sound. -/
theorem modifiedEntry_spec {db : CoinsDB} {layer : CoinsMap} {rest : List CoinsMap}
    {txid : TxHash} (sound : StackSound db (layer :: rest)) :
    (modifiedEntry db layer rest txid).1.coins = (viewOf db (layer :: rest) txid).getD Coins.empty ∧
      viewOf db (modifiedEntry db layer rest txid).2 = viewOf db rest ∧
      StackSound db (modifiedEntry db layer rest txid).2 ∧
      ((modifiedEntry db layer rest txid).1.fresh = true →
        Coins.live (viewOf db rest txid) = none) := by
  cases found : layer.lookup txid with
  | some entry =>
    simp only [modifiedEntry, found, viewOf_cons_of_lookup found, Option.getD_some, true_and]
    exact ⟨sound.2.2, fun isFresh => sound.1.fresh found isFresh⟩
  | none =>
    have below := viewOf_fetchCoins db txid rest
    have read := fetchCoins_fst db txid rest
    have restSound := fetchCoins_sound db txid rest sound.2.2
    rw [viewOf_cons_of_lookup_none found]
    rcases fetched : fetchCoins db rest txid with ⟨_ | coins, rest'⟩
    all_goals
      rw [fetched] at below read restSound
      dsimp only at below read restSound
      simp only [modifiedEntry, found, fetched, ← read]
      refine ⟨rfl, below, restSound, ?_⟩
    · intro _
      rfl
    · exact Coins.live_eq_none_of_pruned

/-- `ModifyCoins` and the modifier on a sound stack: it stays sound, shows the changed
coins for the transaction and the same as before for every other. -/
theorem modifyCoins_spec {db : CoinsDB} {layer : CoinsMap} {rest : List CoinsMap}
    {txid : TxHash} {change : Coins → Coins} (sound : StackSound db (layer :: rest))
    (notRandpay : txid ≠ randpaytx) :
    StackSound db (modifyCoins db (layer :: rest) txid change) ∧
      Coins.live (viewOf db (modifyCoins db (layer :: rest) txid change) txid) =
        Coins.live (some (change ((viewOf db (layer :: rest) txid).getD Coins.empty)).cleanup) ∧
      ∀ u, u ≠ txid →
        viewOf db (modifyCoins db (layer :: rest) txid change) u = viewOf db (layer :: rest) u := by
  obtain ⟨coins, below, restSound, fresh⟩ := @modifiedEntry_spec db layer rest txid sound
  rcases started : modifiedEntry db layer rest txid with ⟨entry, rest'⟩
  rw [started] at coins below restSound fresh
  dsimp only at coins below restSound fresh
  have released := @releaseModifier_spec db layer rest' txid
    { entry with coins := change entry.coins, dirty := true }
    (sound.cons_of_view below restSound) notRandpay rfl (by rw [below]; exact fresh)
  simp only [modifyCoins, started]
  obtain ⟨newSound, atTxid, others⟩ := released
  refine ⟨newSound, by rw [atTxid, coins], fun u other => ?_⟩
  rw [others u other, viewOf_cons_eq below]

/-- `ModifyNewCoins` on a sound stack, for a coinbase or under BIP 30, does not throw: the
modifier starts from pruned coins, `FRESH` only over no live coins. -/
theorem modifyNewCoins_spec {db : CoinsDB} {layer : CoinsMap} {rest : List CoinsMap}
    {txid : TxHash} {coinbase : Bool} {change : Coins → Coins}
    (sound : StackSound db (layer :: rest))
    (bip30 : coinbase = false → Coins.live (viewOf db (layer :: rest) txid) = none) :
    ∃ prior fresh, prior.IsPruned = true ∧
      (fresh = true → Coins.live (viewOf db rest txid) = none) ∧
      modifyNewCoins (layer :: rest) txid coinbase change =
        .ok (releaseModifier layer txid ⟨change prior, true, fresh⟩ :: rest) := by
  cases found : layer.lookup txid with
  | none =>
    -- no entry yet: `CCoins()` without flags, `FRESH` unless a coinbase
    refine ⟨Coins.empty.clear, !coinbase, rfl, fun isFresh => ?_, ?_⟩
    · rw [← viewOf_cons_of_lookup_none found]
      exact bip30 (by simpa using isFresh)
    · simp [modifyNewCoins, found, Coins.empty_isPruned]
  | some entry =>
    refine ⟨entry.coins.clear, entry.fresh || (!coinbase && !entry.dirty),
      Coins.clear_isPruned _, fun isFresh => ?_, ?_⟩
    · cases wasFresh : entry.fresh
      · -- marked `FRESH` here: not a coinbase, and the cached entry is clean
        simp only [wasFresh, Bool.false_or, Bool.and_eq_true, Bool.not_eq_eq_eq_not,
          Bool.not_true] at isFresh
        obtain ⟨notCoinbase, clean⟩ := isFresh
        rw [← sound.1.clean found clean, ← viewOf_cons_of_lookup found]
        exact bip30 notCoinbase
      · exact sound.1.fresh found wasFresh
    · cases coinbase
      · have pruned : entry.coins.IsPruned = true :=
          Coins.isPruned_of_live_eq_none (viewOf_cons_of_lookup found ▸ bip30 rfl)
        simp [modifyNewCoins, found, pruned]
      · simp [modifyNewCoins, found]

/-! ### `BatchWrite` -/

/-- The parent's entry for a transaction after `BatchWrite` of the child's entry for it,
when it does not throw. -/
def mergedEntry (child : CacheEntry) : Option CacheEntry → Option CacheEntry
  | none =>
    if child.dirty && !(child.fresh && child.coins.IsPruned) then
      some ⟨child.coins, true, child.fresh⟩
    else none
  | some ours =>
    if !child.dirty then some ours
    else if ours.fresh && child.coins.IsPruned then none
    else some { ours with coins := child.coins, dirty := true }

/-- When `BatchWrite` throws: a `DIRTY` and `FRESH` child entry over spendable coins in the
parent. -/
def Misapplied (child : CacheEntry) : Option CacheEntry → Prop
  | none => False
  | some ours => child.dirty = true ∧ child.fresh = true ∧ ours.coins.IsPruned = false

theorem batchWriteEntry_writes {parent parent' : CoinsMap} {txid : TxHash} {child : CacheEntry}
    (wrote : batchWriteEntry parent txid child = .ok parent') :
    parent'.lookup txid = mergedEntry child (parent.lookup txid) ∧
      ∀ u, u ≠ txid → parent'.lookup u = parent.lookup u := by
  unfold batchWriteEntry at wrote
  cases dirty : child.dirty <;> cases found : parent.lookup txid <;>
    simp only [dirty, found, Bool.not_false, Bool.not_true, if_true, if_false,
      Bool.false_eq_true] at wrote
  case false.none | false.some =>
    -- a clean child entry is skipped
    cases wrote
    simp [mergedEntry, dirty, found]
  case true.none =>
    split_ifs at wrote with dropped <;> cases wrote
    · simp [mergedEntry, dirty, dropped, found]
    · exact ⟨by simp [AList.lookup_insert, mergedEntry, dirty, dropped],
        fun u other => AList.lookup_insert_ne other⟩
  case true.some ours =>
    split_ifs at wrote with misapplied dropped <;> cases wrote
    · exact ⟨by simp [AList.lookup_erase, mergedEntry, dirty, dropped],
        fun u other => AList.lookup_erase_ne other⟩
    · exact ⟨by simp [AList.lookup_insert, mergedEntry, dirty, dropped],
        fun u other => AList.lookup_insert_ne other⟩

theorem batchWriteEntry_succeeds {parent : CoinsMap} {txid : TxHash} {child : CacheEntry}
    (ok : ¬ Misapplied child (parent.lookup txid)) :
    ∃ parent', batchWriteEntry parent txid child = .ok parent' := by
  unfold batchWriteEntry
  cases dirty : child.dirty
  · exact ⟨parent, by simp⟩
  · cases found : parent.lookup txid with
    | none =>
      simp only [Bool.not_true, Bool.false_eq_true, if_false]
      split_ifs <;> exact ⟨_, rfl⟩
    | some ours =>
      rw [found] at ok
      have kept : ¬(child.fresh = true ∧ (!ours.coins.IsPruned) = true) := by
        simpa [Misapplied, dirty] using ok
      simp only [Bool.not_true, Bool.false_eq_true, if_false, if_neg kept]
      split_ifs <;> exact ⟨_, rfl⟩

/-- `BatchWrite` into a cache, read transaction by transaction: it does not throw when no
child entry is misapplied, and leaves each transaction's merged entry. -/
theorem batchWrite_spec {child parent : CoinsMap}
    (ok : ∀ txid entry, child.lookup txid = some entry → ¬ Misapplied entry (parent.lookup txid)) :
    ∃ parent', batchWrite child parent = .ok parent' ∧
      ∀ u, parent'.lookup u =
        (child.lookup u).elim (parent.lookup u) fun entry => mergedEntry entry (parent.lookup u) :=
  List.foldlM_keyed (fun (layer : CoinsMap) (txid : TxHash) => layer.lookup txid)
    (fun _ entry ours => mergedEntry entry ours)
    batchWriteEntry (fun _ entry ours => ¬ Misapplied entry ours)
    (fun _ _ _ _ wrote => batchWriteEntry_writes wrote) (fun _ _ _ kept => batchWriteEntry_succeeds kept)
    child.entries child.nodupKeys parent
    (fun entry mem => ok entry.1 entry.2 (AList.mem_lookup_iff.mpr mem))

/-- `BatchWrite` into the database, read transaction by transaction. -/
theorem dbBatchWrite_apply (child : CoinsMap) (db : CoinsDB) (u : TxHash) :
    dbBatchWrite child db u = (child.lookup u).elim (db u) fun entry =>
      if entry.dirty then (if entry.coins.IsPruned then none else some entry.coins) else db u :=
  List.foldl_keyed (fun (db : CoinsDB) (txid : TxHash) => db txid)
    (fun _ (entry : CacheEntry) stored =>
      if entry.dirty then (if entry.coins.IsPruned then none else some entry.coins) else stored)
    (fun db txid (entry : CacheEntry) => if entry.dirty then
      Function.update db txid (if entry.coins.IsPruned then none else some entry.coins) else db)
    (fun db txid entry => by
      constructor
      · split_ifs <;> simp
      · intro other ne
        split_ifs <;> simp [Function.update_of_ne ne])
    child.entries child.nodupKeys db u

/-- One transaction under `BatchWrite`: when the child's entry keeps its promises about
the parent and the parent's entry about the view below, the merged entry shows over that
view what the child's entry showed, and keeps the promises. -/
theorem mergedEntry_sound {child : CacheEntry} {ours : Option CacheEntry} {below : Option Coins}
    (childClean : child.dirty = false →
      Coins.live (some child.coins) = Coins.live ((ours.map CacheEntry.coins).or below))
    (childFresh : child.fresh = true → Coins.live ((ours.map CacheEntry.coins).or below) = none)
    (oursClean : ∀ o, ours = some o → o.dirty = false →
      Coins.live (some o.coins) = Coins.live below)
    (oursFresh : ∀ o, ours = some o → o.fresh = true → Coins.live below = none) :
    Coins.live (((mergedEntry child ours).map CacheEntry.coins).or below) =
        Coins.live (some child.coins) ∧
      (∀ o, mergedEntry child ours = some o → o.dirty = false →
        Coins.live (some o.coins) = Coins.live below) ∧
      (∀ o, mergedEntry child ours = some o → o.fresh = true → Coins.live below = none) := by
  cases ours with
  | none =>
    simp only [Option.map_none, Option.none_or] at childClean childFresh
    rw [mergedEntry.eq_1]
    split_ifs with kept
    · -- written to the parent, `FRESH` as in the child
      refine ⟨rfl, ?_, ?_⟩
      · rintro o ⟨⟩ dirty
        cases dirty
      · rintro o ⟨⟩ isFresh
        exact childFresh isFresh
    · -- not written: a clean child, or a `FRESH` child that is pruned
      refine ⟨?_, fun _ => nofun, fun _ => nofun⟩
      simp only [Option.map_none, Option.none_or]
      cases dirty : child.dirty
      · exact (childClean dirty).symm
      · have dropped : child.fresh = true ∧ child.coins.IsPruned = true := by
          simpa [dirty] using kept
        rw [childFresh dropped.1, Coins.live_eq_none_of_pruned dropped.2]
  | some ours =>
    simp only [Option.map_some, Option.some_or] at childClean childFresh
    rw [mergedEntry.eq_2]
    split_ifs with clean dropped
    · -- a clean child entry is skipped
      refine ⟨(childClean (by simpa using clean)).symm, ?_, ?_⟩
      · rintro o ⟨⟩
        exact oursClean ours rfl
      · rintro o ⟨⟩
        exact oursFresh ours rfl
    · -- the parent's `FRESH` entry goes with the child's pruned coins
      have both : ours.fresh = true ∧ child.coins.IsPruned = true := by simpa using dropped
      refine ⟨?_, fun _ => nofun, fun _ => nofun⟩
      simp only [Option.map_none, Option.none_or]
      rw [oursFresh ours rfl both.1, Coins.live_eq_none_of_pruned both.2]
    · -- the child's coins replace the parent's, which keep their `FRESH` flag
      refine ⟨rfl, ?_, ?_⟩
      · rintro o ⟨⟩ dirty
        cases dirty
      · rintro o ⟨⟩ isFresh
        exact oursFresh ours rfl isFresh

/-- `BatchWrite` of a child that keeps its promises into a parent that keeps its own: the
parent still keeps them and shows what the child showed over it. -/
theorem batchWrite_sound {child parent parent' : CoinsMap} {below : TxHash → Option Coins}
    (childSound : LayerSound child
      fun txid => ((parent.lookup txid).map CacheEntry.coins).or (below txid))
    (parentSound : LayerSound parent below)
    (merged : ∀ u, parent'.lookup u =
      (child.lookup u).elim (parent.lookup u) fun entry => mergedEntry entry (parent.lookup u)) :
    LayerSound parent' below ∧ ∀ txid,
      Coins.live (((parent'.lookup txid).map CacheEntry.coins).or (below txid)) =
        Coins.live (((child.lookup txid).map CacheEntry.coins).or
          (((parent.lookup txid).map CacheEntry.coins).or (below txid))) := by
  have atTxid : ∀ txid,
      (Coins.live (((parent'.lookup txid).map CacheEntry.coins).or (below txid)) =
        Coins.live (((child.lookup txid).map CacheEntry.coins).or
          (((parent.lookup txid).map CacheEntry.coins).or (below txid)))) ∧
      (∀ o, parent'.lookup txid = some o → o.dirty = false →
        Coins.live (some o.coins) = Coins.live (below txid)) ∧
      (∀ o, parent'.lookup txid = some o → o.fresh = true → Coins.live (below txid) = none) := by
    intro txid
    rw [merged txid]
    cases found : child.lookup txid with
    | none => exact ⟨rfl, fun _ => parentSound.clean, fun _ => parentSound.fresh⟩
    | some entry =>
      exact mergedEntry_sound (childSound.clean found) (childSound.fresh found)
        (fun _ => parentSound.clean) (fun _ => parentSound.fresh)
  exact ⟨⟨fun found dirty => (atTxid _).2.1 _ found dirty,
    fun found isFresh => (atTxid _).2.2 _ found isFresh⟩, fun txid => (atTxid txid).1⟩

/-! ### `Flush`, `Uncache` and a new cache -/

theorem StackSound.cons_empty {db : CoinsDB} {layer : CoinsMap} {rest : List CoinsMap}
    (sound : StackSound db (layer :: rest)) : StackSound db (∅ :: layer :: rest) :=
  ⟨LayerSound.empty _, by rw [viewOf_empty_cons]; exact sound.2.1, sound⟩

/-- `Flush` into the cache below: a `FRESH` child entry has no live coins below it, so
`BatchWrite` does not throw, and the parent shows what the child showed. -/
theorem flush_into_parent {db : CoinsDB} {layer parent : CoinsMap} {rest : List CoinsMap}
    (sound : StackSound db (layer :: parent :: rest)) :
    ∃ parent', batchWrite layer parent = .ok parent' ∧ StackSound db (parent' :: rest) ∧
      LiveEq (viewOf db (parent' :: rest)) (viewOf db (layer :: parent :: rest)) := by
  obtain ⟨childSound, childRandpay, parentSound, -, restSound⟩ := sound
  have noMisapplied : ∀ txid entry, layer.lookup txid = some entry →
      ¬ Misapplied entry (parent.lookup txid) := by
    intro txid entry found
    cases ours : parent.lookup txid with
    | none => exact id
    | some o =>
      rintro ⟨-, isFresh, spendable⟩
      have dead := childSound.fresh found isFresh
      rw [viewOf_cons_of_lookup ours] at dead
      rw [Coins.isPruned_of_live_eq_none dead] at spendable
      cases spendable
  obtain ⟨parent', wrote, merged⟩ := batchWrite_spec noMisapplied
  rw [viewOf_cons] at childSound
  obtain ⟨parentSound', shows⟩ := batchWrite_sound childSound parentSound merged
  have liveEq : LiveEq (viewOf db (parent' :: rest)) (viewOf db (layer :: parent :: rest)) := by
    intro txid
    simp only [viewOf_cons]
    exact shows txid
  refine ⟨parent', wrote, ⟨parentSound', ?_, restSound⟩, liveEq⟩
  rw [liveEq randpaytx]
  exact childRandpay

/-- `Flush` of the lowest cache into the database: pruned coins are erased, and the
database shows what the cache showed. -/
theorem flush_into_db {db : CoinsDB} {layer : CoinsMap} (sound : StackSound db [layer]) :
    StackSound (dbBatchWrite layer db) [∅] ∧
      LiveEq (viewOf (dbBatchWrite layer db) [∅]) (viewOf db [layer]) := by
  obtain ⟨layerSound, randpay, -⟩ := sound
  have liveEq : LiveEq (viewOf (dbBatchWrite layer db) [∅]) (viewOf db [layer]) := by
    intro txid
    rw [viewOf_empty_cons]
    show Coins.live (dbBatchWrite layer db txid) = _
    rw [dbBatchWrite_apply]
    cases found : layer.lookup txid with
    | none =>
      rw [viewOf_cons_of_lookup_none found]
      rfl
    | some entry =>
      rw [viewOf_cons_of_lookup found, Option.elim_some]
      cases dirty : entry.dirty
      · -- a clean entry is not written: the database already has its coins
        simp only [Bool.false_eq_true, if_false]
        exact (layerSound.clean found dirty).symm
      · by_cases pruned : entry.coins.IsPruned = true
        · simp [pruned, Coins.live_eq_none_of_pruned pruned]
        · simp [pruned]
  exact ⟨⟨LayerSound.empty _, by rw [liveEq]; exact randpay, trivial⟩, liveEq⟩

/-- `Flush` of the cache at any depth of a sound stack does not throw, keeps the stack
sound and as long, and changes no live view of the top. -/
theorem flushLayer_spec (db : CoinsDB) :
    ∀ (layers : List CoinsMap) (depth : Nat), StackSound db layers →
      ∃ layers' db', flushLayer db layers depth = .ok (layers', db') ∧ StackSound db' layers' ∧
        LiveEq (viewOf db' layers') (viewOf db layers) ∧ layers'.length = layers.length
  | [], _, _ => ⟨[], db, rfl, trivial, LiveEq.rfl, rfl⟩
  | [_], 0, sound => ⟨[∅], _, rfl, (flush_into_db sound).1, (flush_into_db sound).2, rfl⟩
  | layer :: parent :: rest, 0, sound => by
    obtain ⟨parent', wrote, sound', shows⟩ := flush_into_parent sound
    refine ⟨∅ :: parent' :: rest, db, by simp [flushLayer, wrote], sound'.cons_empty, ?_, rfl⟩
    rw [viewOf_empty_cons]
    exact shows
  | layer :: rest, depth + 1, sound => by
    -- a lower cache is flushed: the top keeps its promises over a view that agrees
    obtain ⟨rest', db', flushed, sound', shows, length⟩ :=
      flushLayer_spec db rest depth sound.2.2
    refine ⟨layer :: rest', db', by simp [flushLayer, flushed], ⟨sound.1.congr shows.symm, ?_,
      sound'⟩, viewOf_cons_liveEq shows, by simp [length]⟩
    rw [viewOf_cons_liveEq shows randpaytx]
    exact sound.2.1

/-- `Uncache` at any depth of a sound stack: an entry with no flags shows what is below
it, so dropping it keeps the stack sound and changes no live view. -/
theorem uncacheLayer_spec (db : CoinsDB) (txid : TxHash) :
    ∀ (layers : List CoinsMap) (depth : Nat), StackSound db layers →
      StackSound db (uncacheLayer txid layers depth) ∧
        LiveEq (viewOf db (uncacheLayer txid layers depth)) (viewOf db layers) ∧
        (uncacheLayer txid layers depth).length = layers.length
  | [], _, _ => ⟨trivial, LiveEq.rfl, rfl⟩
  | layer :: rest, 0, sound => by
    obtain ⟨top, randpay, restSound⟩ := sound
    cases found : layer.lookup txid with
    | none =>
      simp only [uncacheLayer, found]
      exact ⟨⟨top, randpay, restSound⟩, LiveEq.rfl, trivial⟩
    | some entry =>
      by_cases unflagged : entry.dirty = false ∧ entry.fresh = false
      · have shows : LiveEq (viewOf db (layer.erase txid :: rest)) (viewOf db (layer :: rest)) := by
          intro u
          by_cases here : u = txid
          · subst here
            rw [viewOf_cons_of_lookup_none (AList.lookup_erase _ _), viewOf_cons_of_lookup found]
            exact (top.clean found unflagged.1).symm
          · simp only [viewOf_cons, AList.lookup_erase_ne here]
        simp only [uncacheLayer, found, unflagged.1, unflagged.2, Bool.not_false, Bool.and_self,
          if_true]
        exact ⟨⟨top.erase, by rw [shows]; exact randpay, restSound⟩, shows, rfl⟩
      · -- an entry with a flag stays
        have flagged : ¬(!entry.dirty && !entry.fresh) = true := by simpa using unflagged
        simp only [uncacheLayer, found]
        rw [if_neg flagged]
        exact ⟨⟨top, randpay, restSound⟩, LiveEq.rfl, rfl⟩
  | layer :: rest, depth + 1, sound => by
    obtain ⟨sound', shows, length⟩ := uncacheLayer_spec db txid rest depth sound.2.2
    simp only [uncacheLayer, List.length_cons, length, and_true]
    refine ⟨⟨sound.1.congr shows.symm, ?_, sound'⟩, viewOf_cons_liveEq shows⟩
    rw [viewOf_cons_liveEq shows randpaytx]
    exact sound.2.1

/-- The cache the constructor builds holds only the randpay entry, `DIRTY` and not
`FRESH`: it promises nothing. -/
theorem newCache_sound (below : TxHash → Option Coins) : LayerSound newCache below :=
  (LayerSound.empty below).insert (fun dirty => by cases dirty) (fun isFresh => by cases isFresh)

theorem newCache_lookup_ne {txid : TxHash} (other : txid ≠ randpaytx) :
    newCache.lookup txid = none := by
  rw [newCache, AList.lookup_insert_ne other, AList.lookup_empty]

theorem viewOf_newCache_randpay (db : CoinsDB) (layers : List CoinsMap) :
    viewOf db (newCache :: layers) randpaytx = some randpayCoins :=
  viewOf_cons_of_lookup (AList.lookup_insert _)

/-- A new cache on a sound stack keeps it sound and shows what the stack showed: the
randpay coins it adds are those the stack already shows. -/
theorem push_spec {db : CoinsDB} {layer : CoinsMap} {rest : List CoinsMap}
    (sound : StackSound db (layer :: rest)) :
    StackSound db (newCache :: layer :: rest) ∧
      LiveEq (viewOf db (newCache :: layer :: rest)) (viewOf db (layer :: rest)) := by
  refine ⟨⟨newCache_sound _, by rw [viewOf_newCache_randpay]; rfl, sound⟩, fun u => ?_⟩
  by_cases here : u = randpaytx
  · subst here
    rw [viewOf_newCache_randpay, sound.2.1]
    rfl
  · rw [viewOf_cons_of_lookup_none (newCache_lookup_ne here)]

theorem StackSound.drop {db : CoinsDB} :
    ∀ {layers : List CoinsMap} (depth : Nat), StackSound db layers →
      StackSound db (layers.drop depth)
  | [], depth, _ => by
    rw [List.drop_nil]
    trivial
  | _ :: _, 0, sound => sound
  | _ :: _, depth + 1, sound => StackSound.drop depth sound.2.2

/-! ### The stack as one map -/

/-- The map of coins a stack stands for, after an operation: a modification through
`ModifyCoins` changes the coins the map holds, `CCoins()` when it holds none, one through
`ModifyNewCoins` starts from `CCoins()`; the modifier's destructor runs `Cleanup`. -/
def CoinsOp.onMap : CoinsOp → (TxHash → Option Coins) → TxHash → Option Coins
  | .modify txid change, ref =>
    Function.update ref txid (some (change ((ref txid).getD Coins.empty)).cleanup)
  | .modifyNew txid _ change, ref => Function.update ref txid (some (change Coins.empty).cleanup)
  | _, ref => ref

/-- A modification that maps coins equal under `operator==` to coins equal under it. -/
def Respects (change : Coins → Coins) : Prop := ∀ a b, a.Same b → (change a).Same (change b)

/-- What the callers of the cache guarantee before an operation: the randpay coins are
never modified, modifications respect `operator==`, `ModifyNewCoins` of a non-coinbase is
called only when the top shows no unspent coins for it (BIP 30), and a cache is popped only
onto another. -/
def CoinsOp.Allowed (stack : CoinsStack) : CoinsOp → Prop
  | .modify txid change => txid ≠ randpaytx ∧ Respects change
  | .modifyNew txid coinbase change => txid ≠ randpaytx ∧ Respects change ∧
      (coinbase = false → Coins.live (stack.access txid) = none)
  | .pop => 2 ≤ stack.layers.length
  | _ => True

/-- Coins with one unspent output. -/
def unspentCoins : Coins := ⟨false, [⟨50, [0x51]⟩], 1, 1, false, 0⟩

/-- A database that holds them for transaction 5. -/
def unspentDb : CoinsDB := fun txid => if txid = 5 then some unspentCoins else none

/- Without BIP 30: a read caches the unspent coins in the lower cache, not `FRESH`;
`ModifyNewCoins` on a new cache above does not see them and marks its entry `FRESH`; the
pop's `BatchWrite` then throws. -/
theorem modifyNewOverUnspent_misappliesFresh :
    ∃ stack stack', (CoinsStack.initial unspentDb).run [.access 5, .push] = .ok stack ∧
      Coins.live (stack.access 5) = some unspentCoins ∧
      stack.apply (.modifyNew 5 false fun _ => unspentCoins) = .ok stack' ∧
      stack'.apply .pop = .error .freshMisapplied := by
  refine ⟨_, _, rfl, ?_, rfl, ?_⟩
  · decide
  · rfl

/-- Without the randpay condition: clearing the randpay coins on the top cache leaves a stack
whose only cache no longer shows them, where every new cache starts with them. -/
theorem modifyRandpay_losesRandpay :
    ∃ stack, (CoinsStack.initial unspentDb).run [.modify randpaytx Coins.clear] = .ok stack ∧
      stack.layers.length = 1 ∧ Coins.live (fetchCoins stack.db stack.layers randpaytx).1 = none := by
  refine ⟨_, rfl, rfl, ?_⟩
  decide

/-- Coins whose one output is spent, under version 2. -/
def prunedCoins : Coins := ⟨false, [TxOut.null], 1, 2, false, 0⟩

/-- A database that holds them for transaction 7. -/
def prunedDb : CoinsDB := fun txid => if txid = 7 then some prunedCoins else none

/-- A modification that tells pruned coins apart by their spent outputs: it revives those
that still list them. -/
def reviveUncleaned (coins : Coins) : Coins := if coins.vout = [] then coins else unspentCoins

/-- Without `Respects`: a first modification of transaction 7 leaves the stack showing the
database's pruned coins, their entry erased, and the map their cleaned copy; the two are equal
under `operator==`, but a modification that reads their outputs revives the one and not the
other. -/
theorem modifyUnrespected_diverges :
    ¬ Respects reviveUncleaned ∧
      ∃ stack, (CoinsStack.initial prunedDb).run [.modify 7 id, .modify 7 reviveUncleaned] = .ok stack ∧
        Coins.live (stack.access 7) = some unspentCoins ∧
        Coins.live ((CoinsOp.modify 7 reviveUncleaned).onMap ((CoinsOp.modify 7 id).onMap
          (Function.update prunedDb randpaytx (some randpayCoins))) 7) = none := by
  refine ⟨fun respects => ?_, _, rfl, by decide, by decide⟩
  -- the two pruned coins are equal under `operator==`, their revivals are not
  have revived := respects prunedCoins prunedCoins.cleanup rfl
  unfold Coins.Same at revived
  exact absurd revived (by decide)

/-- Stacks reached from the database with `pcoinsTip`, one new cache, on it, by allowed
operations, each with the map it stands for. -/
inductive CoinsReachable (db₀ : CoinsDB) : CoinsStack → (TxHash → Option Coins) → Prop
  | initial : CoinsReachable db₀ (CoinsStack.initial db₀)
      (Function.update db₀ randpaytx (some randpayCoins))
  | step {stack stack' : CoinsStack} {ref : TxHash → Option Coins} {op : CoinsOp} :
      CoinsReachable db₀ stack ref → op.Allowed stack → stack.apply op = .ok stack' →
      CoinsReachable db₀ stack' (op.onMap ref)

/-- What holds of every stack reached: its caches keep their promises, there is at least
one, and the top shows the map. -/
structure Refines (stack : CoinsStack) (ref : TxHash → Option Coins) : Prop where
  sound : StackSound stack.db stack.layers
  nonempty : stack.layers ≠ []
  shows : LiveEq (viewOf stack.db stack.layers) ref

/-- A view that changed at one transaction only, to coins the map now holds there. -/
theorem LiveEq.update {f f' g : TxHash → Option Coins} {txid : TxHash} {coins : Coins}
    (same : LiveEq f g) (others : ∀ u, u ≠ txid → f' u = f u)
    (atTxid : Coins.live (f' txid) = Coins.live (some coins)) :
    LiveEq f' (Function.update g txid (some coins)) := by
  intro u
  by_cases here : u = txid
  · subst here
    rw [Function.update_self, atTxid]
  · rw [Function.update_of_ne here, others u here, same u]

theorem Refines.initial (db : CoinsDB) :
    Refines (CoinsStack.initial db) (Function.update db randpaytx (some randpayCoins)) where
  sound := ⟨newCache_sound _, by rw [viewOf_newCache_randpay]; rfl, trivial⟩
  nonempty := List.cons_ne_nil _ _
  shows := LiveEq.update (f := viewOf db []) LiveEq.rfl
    (fun _ other => viewOf_cons_of_lookup_none (newCache_lookup_ne other))
    (by rw [CoinsStack.initial, viewOf_newCache_randpay])

theorem Refines.access {stack : CoinsStack} {ref : TxHash → Option Coins}
    (refines : Refines stack ref) (txid : TxHash) :
    Refines { stack with layers := (fetchCoins stack.db stack.layers txid).2 } ref where
  sound := fetchCoins_sound _ _ _ refines.sound
  nonempty := fetchCoins_ne_nil _ _ refines.nonempty
  shows := by
    show LiveEq (viewOf stack.db (fetchCoins stack.db stack.layers txid).2) ref
    rw [viewOf_fetchCoins]
    exact refines.shows

theorem Refines.modify {stack : CoinsStack} {ref : TxHash → Option Coins} {txid : TxHash}
    {change : Coins → Coins} (refines : Refines stack ref) (notRandpay : txid ≠ randpaytx)
    (respects : Respects change) :
    Refines { stack with layers := modifyCoins stack.db stack.layers txid change }
      ((CoinsOp.modify txid change).onMap ref) := by
  obtain ⟨db, layers⟩ := stack
  obtain ⟨sound, nonempty, shows⟩ := refines
  obtain _ | ⟨layer, rest⟩ := layers
  · exact absurd rfl nonempty
  obtain ⟨sound', atTxid, others⟩ := @modifyCoins_spec db layer rest txid change sound notRandpay
  -- the stack and the map start from coins equal under `operator==`
  have agree : Coins.Same ((viewOf db (layer :: rest) txid).getD Coins.empty)
      ((ref txid).getD Coins.empty) := by
    unfold Coins.Same
    rw [Coins.live_getD_empty, Coins.live_getD_empty]
    exact shows txid
  refine ⟨sound', by simp [modifyCoins], ?_⟩
  exact shows.update others (atTxid.trans (respects _ _ agree).cleanup)

theorem Refines.modifyNew {stack : CoinsStack} {ref : TxHash → Option Coins} {txid : TxHash}
    {coinbase : Bool} {change : Coins → Coins} (refines : Refines stack ref)
    (notRandpay : txid ≠ randpaytx) (respects : Respects change)
    (bip30 : coinbase = false → Coins.live (viewOf stack.db stack.layers txid) = none) :
    ∃ layers', modifyNewCoins stack.layers txid coinbase change = .ok layers' ∧
      Refines { stack with layers := layers' } ((CoinsOp.modifyNew txid coinbase change).onMap ref) := by
  obtain ⟨db, layers⟩ := stack
  obtain ⟨sound, nonempty, shows⟩ := refines
  obtain _ | ⟨layer, rest⟩ := layers
  · exact absurd rfl nonempty
  obtain ⟨prior, fresh, pruned, freshBelow, modified⟩ :=
    @modifyNewCoins_spec db layer rest txid coinbase change sound bip30
  obtain ⟨sound', atTxid, others⟩ :=
    @releaseModifier_spec db layer rest txid ⟨change prior, true, fresh⟩ sound notRandpay rfl
      freshBelow
  -- the modifier starts from pruned coins, equal under `operator==` to `CCoins()`
  have agree : prior.Same Coins.empty := by
    unfold Coins.Same
    rw [Coins.live_eq_none_of_pruned pruned, Coins.live_eq_none_of_pruned Coins.empty_isPruned]
  refine ⟨_, modified, sound', List.cons_ne_nil _ _, ?_⟩
  exact shows.update others (atTxid.trans (respects _ _ agree).cleanup)

theorem Refines.flush {stack : CoinsStack} {ref : TxHash → Option Coins}
    (refines : Refines stack ref) (depth : Nat) :
    ∃ layers db, flushLayer stack.db stack.layers depth = .ok (layers, db) ∧
      Refines ⟨db, layers⟩ ref := by
  obtain ⟨layers, db, flushed, sound, shows, length⟩ :=
    flushLayer_spec stack.db stack.layers depth refines.sound
  refine ⟨layers, db, flushed, sound, ?_, shows.trans refines.shows⟩
  rw [← List.length_pos_iff, length, List.length_pos_iff]
  exact refines.nonempty

theorem Refines.uncache {stack : CoinsStack} {ref : TxHash → Option Coins}
    (refines : Refines stack ref) (depth : Nat) (txid : TxHash) :
    Refines { stack with layers := uncacheLayer txid stack.layers depth } ref := by
  obtain ⟨sound, shows, length⟩ :=
    uncacheLayer_spec stack.db txid stack.layers depth refines.sound
  refine ⟨sound, ?_, shows.trans refines.shows⟩
  show uncacheLayer txid stack.layers depth ≠ []
  rw [← List.length_pos_iff, length, List.length_pos_iff]
  exact refines.nonempty

theorem Refines.push {stack : CoinsStack} {ref : TxHash → Option Coins}
    (refines : Refines stack ref) :
    Refines { stack with layers := newCache :: stack.layers } ref := by
  obtain ⟨db, layers⟩ := stack
  obtain ⟨sound, nonempty, shows⟩ := refines
  obtain _ | ⟨layer, rest⟩ := layers
  · exact absurd rfl nonempty
  obtain ⟨sound', shows'⟩ := push_spec sound
  exact ⟨sound', List.cons_ne_nil _ _, shows'.trans shows⟩

theorem Refines.pop {stack : CoinsStack} {ref : TxHash → Option Coins}
    (refines : Refines stack ref) (twoLayers : 2 ≤ stack.layers.length) :
    ∃ stack', stack.apply .pop = .ok stack' ∧ Refines stack' ref := by
  obtain ⟨db, layers⟩ := stack
  match layers, twoLayers, refines with
  | layer :: parent :: rest, _, refines =>
    obtain ⟨parent', wrote, sound', shows'⟩ := flush_into_parent refines.sound
    exact ⟨⟨db, parent' :: rest⟩, by simp [CoinsStack.apply, flushLayer, wrote],
      sound', List.cons_ne_nil _ _, shows'.trans refines.shows⟩

/-- One allowed operation on a stack that stands for a map does not throw, and the stack
after it stands for the map after it. -/
theorem Refines.apply {stack : CoinsStack} {ref : TxHash → Option Coins} {op : CoinsOp}
    (refines : Refines stack ref) (allowed : op.Allowed stack) :
    ∃ stack', stack.apply op = .ok stack' ∧ Refines stack' (op.onMap ref) := by
  cases op with
  | access txid => exact ⟨_, rfl, refines.access txid⟩
  | modify txid change => exact ⟨_, rfl, refines.modify allowed.1 allowed.2⟩
  | modifyNew txid coinbase change =>
    obtain ⟨notRandpay, respects, bip30⟩ := allowed
    -- BIP 30 as the caller checks it, through `AccessCoins` on the top
    have unspent : coinbase = false → Coins.live (viewOf stack.db stack.layers txid) = none := by
      intro notCoinbase
      rw [← fetchCoins_fst]
      exact bip30 notCoinbase
    obtain ⟨layers, modified, refines'⟩ := refines.modifyNew notRandpay respects unspent
    exact ⟨_, by simp [CoinsStack.apply, modified], refines'⟩
  | flush depth =>
    obtain ⟨layers, db, flushed, refines'⟩ := refines.flush depth
    exact ⟨_, by simp [CoinsStack.apply, flushed], refines'⟩
  | uncache depth txid => exact ⟨_, rfl, refines.uncache depth txid⟩
  | push => exact ⟨_, rfl, refines.push⟩
  | pop => exact refines.pop allowed

/-- Every stack reached stands for its map: induction over the operations, with
`Refines.apply` as the step. -/
theorem CoinsReachable.refines {db₀ : CoinsDB} {stack : CoinsStack}
    {ref : TxHash → Option Coins} (reached : CoinsReachable db₀ stack ref) : Refines stack ref := by
  induction reached with
  | initial => exact Refines.initial db₀
  | step _ allowed applied refines =>
    obtain ⟨stack', applied', refines'⟩ := refines.apply allowed
    rw [applied] at applied'
    cases applied'
    exact refines'

/-- A stack of caches reached by allowed operations stands for one map of coins: its top
shows the map under `operator==`, every cache in it shows the randpay coins, and no allowed
operation throws on it. -/
theorem coinsStack_refines_map {db₀ : CoinsDB} {stack : CoinsStack}
    {ref : TxHash → Option Coins} (reached : CoinsReachable db₀ stack ref) :
    (∀ txid, Coins.live (stack.access txid) = Coins.live (ref txid)) ∧
      (∀ depth < stack.layers.length,
        Coins.live (fetchCoins stack.db (stack.layers.drop depth) randpaytx).1 =
          some randpayCoins) ∧
      ∀ op, op.Allowed stack → ∃ stack', stack.apply op = .ok stack' := by
  have refines := reached.refines
  refine ⟨fun txid => ?_, fun depth below => ?_, fun op allowed => ?_⟩
  · rw [CoinsStack.access, fetchCoins_fst]
    exact refines.shows txid
  · -- the cache at that depth heads a sound stack, which shows the randpay coins
    have sound := refines.sound.drop depth
    rw [List.drop_eq_getElem_cons below] at sound ⊢
    rw [fetchCoins_fst]
    exact sound.2.1
  · obtain ⟨stack', applied, -⟩ := refines.apply allowed
    exact ⟨stack', applied⟩

theorem coinsStack_refines_map_pushModifyPop :
    ∃ stack ref, (CoinsStack.initial unspentDb).run [.push, .modify 5 Coins.clear, .pop] = .ok stack ∧
      CoinsReachable unspentDb stack ref ∧
      ((∀ txid, Coins.live (stack.access txid) = Coins.live (ref txid)) ∧
        (∀ depth < stack.layers.length,
          Coins.live (fetchCoins stack.db (stack.layers.drop depth) randpaytx).1 = some randpayCoins) ∧
        ∀ op, op.Allowed stack → ∃ stack', stack.apply op = .ok stack') := by
  -- each operation is allowed where it is applied, and each application is computed
  have pushed := @CoinsReachable.step unspentDb _ _ _ .push .initial trivial rfl
  have modified := @CoinsReachable.step unspentDb _ _ _ (.modify 5 Coins.clear) pushed
    ⟨by decide, fun _ _ _ => rfl⟩ rfl
  have popped := @CoinsReachable.step unspentDb _ _ _ .pop modified
    (by unfold CoinsOp.Allowed; decide) rfl
  exact ⟨_, _, rfl, popped, coinsStack_refines_map popped⟩

end MFCoin.CoinsView
