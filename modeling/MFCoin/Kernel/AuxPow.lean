/-
Module: MFCoin.Kernel.AuxPow
Purpose: Merged mining (src/src/pow.cpp, src/src/auxpow.h): `AuxPoWCheck` with its error
  texts, the `std::search` for the merged-mining header and for the chain merkle root in the
  parent coinbase, the tree size and nonce read by `memcpy`, the slot chosen by two rounds of
  the 32-bit LCG, and `CheckBlockProofOfWork`. One unit of parent work certifies one aux
  block per chain: two proofs accepted over one parent coinbase have the same chain index,
  and the same aux block hash as long as `Hash` is injective on the inputs their chain
  branches hash.
Trusted boundary: `Hash` over two `uint256` (the double-SHA256 of their 64 bytes) is a
  parameter; `GetBtcHash`, `GetHash` and `GetPoWHash` are fields of the model.
Main exports: search, isPrefixOf_drop_search, AuxPow, auxPoWCheck, Accepted, auxPoWCheck_ok,
  branchPairs, computeMerkleRootFromBranch_leaf_eq, checkBlockProofOfWork
-/
import MFCoin.Consensus.Merkle
import MFCoin.Kernel.Pow
import MFCoin.Lib.ExceptRun
import MFCoin.Net.BlockEncodings

namespace MFCoin.Pow

open MFCoin.Arith MFCoin.Consensus MFCoin.Net MFCoin.Script

/-! ### `std::search` -/

section Search

variable {α : Type} [BEq α]

/-- `std::search(first, last, pattern)` as an offset from first: the first position where the
whole pattern occurs, or the length (last) when it occurs nowhere. -/
def search (pattern : List α) : List α → Nat
  | [] => 0
  | x :: rest => if pattern.isPrefixOf (x :: rest) then 0 else search pattern rest + 1

theorem search_le_length (pattern : List α) : ∀ haystack, search pattern haystack ≤ haystack.length
  | [] => le_rfl
  | x :: rest => by
    rw [search]
    split
    · exact Nat.zero_le _
    · exact Nat.succ_le_succ (search_le_length pattern rest)

/-- A position before the end is an occurrence: the pattern starts there. -/
theorem isPrefixOf_drop_search (pattern : List α) :
    ∀ haystack, search pattern haystack < haystack.length →
      pattern.isPrefixOf (haystack.drop (search pattern haystack)) = true
  | [], found => absurd found (Nat.lt_irrefl 0)
  | x :: rest, found => by
    rw [search] at found ⊢
    split
    · assumption
    · rename_i notHere
      rw [if_neg notHere] at found
      exact isPrefixOf_drop_search pattern rest (Nat.lt_of_succ_lt_succ found)

end Search

/-- Two patterns of one length found at one position are the same. -/
theorem eq_of_isPrefixOf_drop {α : Type} [BEq α] [LawfulBEq α] {p q s : List α} {i : Nat}
    (hp : p.isPrefixOf (s.drop i) = true) (hq : q.isPrefixOf (s.drop i) = true)
    (length : p.length = q.length) : p = q := by
  rw [List.isPrefixOf_iff_prefix] at hp hq
  exact (List.prefix_of_prefix_length_le hp hq length.le).eq_of_length length

/-! ### The merged-mining proof -/

/-- The fields of `CBlockHeader` that merged mining reads, with the header's `GetHash()`. -/
structure BlockHeader where
  nVersion : Int32
  hashMerkleRoot : Uint256
  hash : Uint256

def BLOCK_VERSION_AUXPOW : Int32 := (1 : Int32) <<< 8

def BLOCK_VERSION_CHAIN_START : Int32 := (1 : Int32) <<< 16

def AUXPOW_CHAIN_ID : Int32 := 666

/-- `CBlockHeader::GetChainID`: C division, truncating towards zero. -/
def BlockHeader.getChainID (header : BlockHeader) : Int32 :=
  header.nVersion / BLOCK_VERSION_CHAIN_START

/-- `CBlockHeader::GetBlockVersion`. -/
def BlockHeader.getBlockVersion (header : BlockHeader) : Int32 := header.nVersion &&& 0xff

/-- The parent coinbase as AuxPoWCheck reads it: `GetBtcHash()` and the `scriptSig` of
`vin[0]`. -/
structure ParentCoinbase where
  btcHash : Uint256
  scriptSig : Script

/-- `CAuxPow` with the fields of `CMerkleTxSmall` that AuxPoWCheck reads. -/
structure AuxPow where
  tx : ParentCoinbase
  vMerkleBranch : List Uint256
  nIndex : Int32
  vChainMerkleBranch : List Uint256
  nChainIndex : UInt32
  parentBlockHeader : BlockHeader

/-- `pchMergedMiningHeader`: 0xfa, 0xbe, 'm', 'm'. -/
def pchMergedMiningHeader : List UInt8 := [0xfa, 0xbe, 0x6d, 0x6d]

/-- `memcpy(&n, &pc[k], 4)` into an `int` on a little-endian host. -/
def memcpyInt (script : Script) (pc : Nat) : Int32 := Int32.ofNat (readLE ((script.drop pc).take 4))

/-- The slot of AuxPoWCheck before the reduction mod the tree size: two rounds of the C
library's LCG over the nonce and the chain ID, in `unsigned int` arithmetic. -/
def chainSlotRand (nNonce nChainID : Int32) : UInt32 :=
  let rand : UInt32 := nNonce.toUInt32
  let rand := rand * 1103515245 + 12345
  let rand := rand + nChainID.toUInt32
  rand * 1103515245 + 12345

section Check

open Except

variable (hash : Uint256 → Uint256 → Uint256)

/-- Where AuxPoWCheck wants the chain merkle root: with the header found, after the only header
of the coinbase; without it, in the first 20 bytes. The second branch is never reached, since
a missing header is an error before. -/
def checkRootPlacement (script : Script) (pcHead pc : Nat) : Except String Unit :=
  if pcHead ≠ script.length then do
    failIf (search pchMergedMiningHeader (script.drop (pcHead + 1)) + (pcHead + 1) ≠ script.length)
      "Multiple merged mining headers in coinbase"
    failIf (pcHead + pchMergedMiningHeader.length ≠ pc)
      "Merged mining header is not just before chain merkle root"
  else
    failIf (pc > 20)
      "Aux POW chain merkle root must start in the first 20 bytes of the parent coinbase"

/-- `AuxPoWCheck`: each `return error(...)` is a guard with its text. The second search for
the header starts one byte after the first. `1 << size` is taken once the branch is known to
have at most 30 entries, where the `int` shift is exact. -/
def auxPoWCheck (aux : AuxPow) (hashAuxBlock : Uint256) (nChainID : Int32)
    (fPowAllowMinDifficultyBlocks : Bool) : Except String Unit := do
  failIf (aux.nIndex ≠ 0) "AuxPow is not a generate"
  failIf (!fPowAllowMinDifficultyBlocks && aux.parentBlockHeader.getChainID == nChainID)
    "Aux POW parent has our chain ID"
  failIf (aux.vChainMerkleBranch.length > 30) "Aux POW chain merkle branch too long"
  let nRootHash :=
    computeMerkleRootFromBranch hash hashAuxBlock aux.vChainMerkleBranch aux.nChainIndex.toNat
  let vchRootHash := nRootHash.data.reverse
  failIf (computeMerkleRootFromBranch hash aux.tx.btcHash aux.vMerkleBranch
      aux.nIndex.toUInt32.toNat ≠ aux.parentBlockHeader.hashMerkleRoot)
    "Aux POW merkle root incorrect"
  let script := aux.tx.scriptSig
  let pcHead := search pchMergedMiningHeader script
  let pc := search vchRootHash script
  failIf (pcHead = script.length) "MergedMiningHeader missing from parent coinbase"
  failIf (pc = script.length) "Aux POW missing chain merkle root in parent coinbase"
  checkRootPlacement script pcHead pc
  let pc := pc + vchRootHash.length
  failIf (script.length - pc < 8)
    "Aux POW missing chain merkle tree size and nonce in parent coinbase"
  let nSize := memcpyInt script pc
  failIf (nSize.toInt ≠ ((1 <<< aux.vChainMerkleBranch.length : Nat) : Int))
    "Aux POW merkle branch size does not match parent coinbase"
  let nNonce := memcpyInt script (pc + 4)
  failIf (aux.nChainIndex ≠ chainSlotRand nNonce nChainID % nSize.toUInt32) "Aux POW wrong index"

/-- The chain merkle root that the aux block hash climbs to. -/
def AuxPow.chainRoot (aux : AuxPow) (hashAuxBlock : Uint256) : Uint256 :=
  computeMerkleRootFromBranch hash hashAuxBlock aux.vChainMerkleBranch aux.nChainIndex.toNat

/-- The position of the merged-mining header in the parent coinbase. -/
def AuxPow.headerPos (aux : AuxPow) : Nat := search pchMergedMiningHeader aux.tx.scriptSig

/-- What AuxPoWCheck has checked when it accepts: the chain merkle root stands right after the
one merged-mining header of the parent coinbase, and the tree size and the nonce follow it. -/
structure Accepted (aux : AuxPow) (hashAuxBlock : Uint256) (nChainID : Int32)
    (fPowAllowMinDifficultyBlocks : Bool) : Prop where
  generate : aux.nIndex = 0
  chainID : fPowAllowMinDifficultyBlocks = false → aux.parentBlockHeader.getChainID ≠ nChainID
  short : aux.vChainMerkleBranch.length ≤ 30
  inParent : computeMerkleRootFromBranch hash aux.tx.btcHash aux.vMerkleBranch 0 =
    aux.parentBlockHeader.hashMerkleRoot
  headerFound : aux.headerPos < aux.tx.scriptSig.length
  singleHeader : search pchMergedMiningHeader (aux.tx.scriptSig.drop (aux.headerPos + 1)) +
    (aux.headerPos + 1) = aux.tx.scriptSig.length
  rootAfterHeader : search (aux.chainRoot hash hashAuxBlock).data.reverse aux.tx.scriptSig =
    aux.headerPos + 4
  room : aux.headerPos + 44 ≤ aux.tx.scriptSig.length
  size : (memcpyInt aux.tx.scriptSig (aux.headerPos + 36)).toInt =
    ((1 <<< aux.vChainMerkleBranch.length : Nat) : Int)
  slot : aux.nChainIndex = chainSlotRand (memcpyInt aux.tx.scriptSig (aux.headerPos + 40)) nChainID %
    (memcpyInt aux.tx.scriptSig (aux.headerPos + 36)).toUInt32

theorem checkRootPlacement_ok {script : Script} {pcHead pc : Nat} (found : pcHead ≠ script.length) :
    checkRootPlacement script pcHead pc = .ok () ↔
      search pchMergedMiningHeader (script.drop (pcHead + 1)) + (pcHead + 1) = script.length ∧
        pcHead + 4 = pc := by
  rw [checkRootPlacement, if_pos found, failIf_bind_eq_ok, failIf_eq_ok, not_not, not_not]
  exact Iff.rfl

/-- The inversion of AuxPoWCheck: an accepted proof passed every check. -/
theorem auxPoWCheck_ok {aux : AuxPow} {hashAuxBlock : Uint256} {nChainID : Int32} {fPow : Bool}
    (accepted : auxPoWCheck hash aux hashAuxBlock nChainID fPow = .ok ()) :
    Accepted hash aux hashAuxBlock nChainID fPow := by
  simp only [auxPoWCheck, unit_bind_eq_ok, failIf_eq_ok, not_not] at accepted
  obtain ⟨generate, chainID, short, inParent, headerMissing, -, placement, room, size, slot⟩ :=
    accepted
  obtain ⟨single, after⟩ := (checkRootPlacement_ok headerMissing).mp placement
  -- the root takes 32 bytes: the tree size and the nonce are read 36 and 40 bytes after the header
  simp only [← after, List.length_reverse, Uint256.length_data, Nat.add_assoc, Nat.reduceAdd]
    at room size slot
  have room : aux.headerPos + 44 ≤ aux.tx.scriptSig.length := by
    unfold AuxPow.headerPos
    omega
  refine ⟨generate, fun strict => ?_, by omega, ?_, lt_of_le_of_ne (search_le_length _ _)
    headerMissing, single, after.symm, room, size, slot⟩
  · simpa [strict] using chainID
  · rw [generate] at inParent
    exact inParent

/-! ### One unit of parent work, one aux block -/

section Unique

variable {hash} {aux aux' : AuxPow} {hashAuxBlock hashAuxBlock' : Uint256} {nChainID : Int32}
  {fPow : Bool} (sameCoinbase : aux.tx = aux'.tx)
  (accepted : Accepted hash aux hashAuxBlock nChainID fPow)
  (accepted' : Accepted hash aux' hashAuxBlock' nChainID fPow)

include sameCoinbase

theorem AuxPow.headerPos_eq : aux.headerPos = aux'.headerPos := by
  rw [AuxPow.headerPos, AuxPow.headerPos, sameCoinbase]

include accepted accepted'

/-- Both chain merkle roots are the 32 bytes right after the one header. -/
theorem Accepted.chainRoot_eq : aux.chainRoot hash hashAuxBlock = aux'.chainRoot hash hashAuxBlock' := by
  have found := isPrefixOf_drop_search _ aux.tx.scriptSig
    (by rw [accepted.rootAfterHeader]; have := accepted.room; omega)
  have found' := isPrefixOf_drop_search _ aux'.tx.scriptSig
    (by rw [accepted'.rootAfterHeader]; have := accepted'.room; omega)
  rw [accepted.rootAfterHeader] at found
  rw [accepted'.rootAfterHeader, ← AuxPow.headerPos_eq sameCoinbase, ← sameCoinbase] at found'
  have reversed := eq_of_isPrefixOf_drop found found' (by simp [Uint256.length_data])
  exact Uint256.ext (List.reverse_inj.mp reversed)

/-- The tree size read after the root is 2 ^ the length of either chain branch. -/
theorem Accepted.length_eq : aux.vChainMerkleBranch.length = aux'.vChainMerkleBranch.length := by
  have size := accepted.size
  rw [AuxPow.headerPos_eq sameCoinbase, sameCoinbase, accepted'.size, Nat.cast_inj,
    Nat.one_shiftLeft, Nat.one_shiftLeft] at size
  exact (Nat.pow_right_injective le_rfl size).symm

/-- The slot is a function of the size, the nonce and the chain ID, all read from the coinbase. -/
theorem Accepted.nChainIndex_eq : aux.nChainIndex = aux'.nChainIndex := by
  rw [accepted.slot, accepted'.slot, AuxPow.headerPos_eq sameCoinbase, sameCoinbase]

/-- Over one coinbase, a hash injective on what the two climbs hash pins the aux block hash. -/
theorem Accepted.hashAuxBlock_eq
    (collisionFree : ∀ x ∈ branchPairs hash hashAuxBlock aux.vChainMerkleBranch aux.nChainIndex.toNat,
      ∀ y ∈ branchPairs hash hashAuxBlock' aux'.vChainMerkleBranch aux'.nChainIndex.toNat,
        hash x.1 x.2 = hash y.1 y.2 → x = y) :
    hashAuxBlock = hashAuxBlock' := by
  have index := accepted.nChainIndex_eq sameCoinbase accepted'
  have roots := accepted.chainRoot_eq sameCoinbase accepted'
  rw [AuxPow.chainRoot, AuxPow.chainRoot, ← index] at roots
  rw [← index] at collisionFree
  exact computeMerkleRootFromBranch_leaf_eq hash _ _ _ _ _ (accepted.length_eq sameCoinbase accepted')
    collisionFree roots

end Unique

/-- One unit of parent work certifies one aux block per chain: two merged-mining proofs that
AuxPoWCheck accepts for one chain over the same parent coinbase sit in the same slot of the
chain merkle tree, and prove the same aux block hash as long as `Hash` separates the pairs their
chain branches hash. -/
theorem auxPoWCheck_sameWork {aux aux' : AuxPow} {hashAuxBlock hashAuxBlock' : Uint256}
    {nChainID : Int32} {fPow : Bool} (sameCoinbase : aux.tx = aux'.tx)
    (accepted : auxPoWCheck hash aux hashAuxBlock nChainID fPow = .ok ())
    (accepted' : auxPoWCheck hash aux' hashAuxBlock' nChainID fPow = .ok ())
    (collisionFree : ∀ x ∈ branchPairs hash hashAuxBlock aux.vChainMerkleBranch aux.nChainIndex.toNat,
      ∀ y ∈ branchPairs hash hashAuxBlock' aux'.vChainMerkleBranch aux'.nChainIndex.toNat,
        hash x.1 x.2 = hash y.1 y.2 → x = y) :
    hashAuxBlock = hashAuxBlock' ∧ aux.nChainIndex = aux'.nChainIndex := by
  have checked := auxPoWCheck_ok hash accepted
  have checked' := auxPoWCheck_ok hash accepted'
  exact ⟨checked.hashAuxBlock_eq sameCoinbase checked' collisionFree,
    checked.nChainIndex_eq sameCoinbase checked'⟩

theorem auxPoWCheck_sameWork_sample :
    let leaf : Uint256 := ⟨List.replicate 32 7, rfl⟩
    let other : Uint256 := ⟨List.replicate 32 9, rfl⟩
    let aux : AuxPow :=
      { tx := ⟨leaf, pchMergedMiningHeader ++ List.replicate 32 7 ++ [2, 0, 0, 0, 0, 0, 0, 0]⟩
        vMerkleBranch := [], nIndex := 0, vChainMerkleBranch := [leaf], nChainIndex := 0
        parentBlockHeader := ⟨0, leaf, leaf⟩ }
    -- the same coinbase under another parent header, reached by another branch
    let aux' : AuxPow := { aux with vMerkleBranch := [other], parentBlockHeader := ⟨1, leaf, other⟩ }
    aux.vMerkleBranch ≠ aux'.vMerkleBranch ∧ aux.parentBlockHeader.hash ≠ aux'.parentBlockHeader.hash ∧
      auxPoWCheck (fun a _ => a) aux leaf AUXPOW_CHAIN_ID false = .ok () ∧
      auxPoWCheck (fun a _ => a) aux' leaf AUXPOW_CHAIN_ID false = .ok () ∧
      (leaf = leaf ∧ aux.nChainIndex = aux'.nChainIndex) := by
  intro leaf other aux aux'
  have accepted : auxPoWCheck (fun a _ => a) aux leaf AUXPOW_CHAIN_ID false = .ok () := by decide
  have accepted' : auxPoWCheck (fun a _ => a) aux' leaf AUXPOW_CHAIN_ID false = .ok () := by decide
  exact ⟨by decide, by decide, accepted, accepted',
    auxPoWCheck_sameWork (fun a _ => a) rfl accepted accepted' (by decide)⟩

/-- An `int` that is not negative keeps its value as an `unsigned int`. -/
theorem toNat_toUInt32_of_nonneg (x : Int32) (nonneg : 0 ≤ x.toInt) :
    (x.toUInt32.toNat : Int) = x.toInt := by
  rw [← Int32.toNat_toBitVec, ← Int32.toInt_toBitVec]
  have := x.toBitVec.isLt
  rw [← Int32.toInt_toBitVec, BitVec.toInt] at nonneg
  rw [BitVec.toInt]
  split
  · rfl
  · simp_all
    omega

/-- An accepted chain index addresses a leaf of the chain merkle tree: it has no bit above the
branch, so the climb reads every bit of it. -/
theorem auxPoWCheck_chainIndex_lt {aux : AuxPow} {hashAuxBlock : Uint256} {nChainID : Int32}
    {fPow : Bool} (accepted : auxPoWCheck hash aux hashAuxBlock nChainID fPow = .ok ()) :
    aux.nChainIndex.toNat < 2 ^ aux.vChainMerkleBranch.length := by
  have checked := auxPoWCheck_ok hash accepted
  -- the tree size read from the coinbase is 2 ^ the branch length, also as an unsigned int
  have size : (memcpyInt aux.tx.scriptSig (aux.headerPos + 36)).toUInt32.toNat =
      2 ^ aux.vChainMerkleBranch.length := by
    have unsigned := toNat_toUInt32_of_nonneg _ (by rw [checked.size]; positivity)
    rw [checked.size, Nat.one_shiftLeft] at unsigned
    exact_mod_cast unsigned
  rw [checked.slot, UInt32.toNat_mod, size]
  exact Nat.mod_lt _ (Nat.two_pow_pos _)

/-! ### `CheckBlockProofOfWork` -/

/-- `UintToArith256`: the 32 bytes of a `uint256` as a little-endian number. -/
def uintToArith256 (a : Uint256) : ArithUint256 := BitVec.ofNat 256 (readLE a.data)

/-- A block header as CheckBlockProofOfWork reads it: the fields of `BlockHeader`, `nBits`,
`GetPoWHash()` and the merged-mining proof it carries. -/
structure PowHeader where
  header : BlockHeader
  nBits : UInt32
  powHash : Uint256
  auxpow : Option AuxPow

/-- `CheckBlockProofOfWork`. A merged-mined block is checked against the work of its parent;
the text of a failing AuxPoWCheck is replaced by the caller's. -/
def checkBlockProofOfWork (block : PowHeader) (params : ConsensusParams)
    (fPowAllowMinDifficultyBlocks : Bool) : Except String Unit :=
  if block.header.getBlockVersion > 4 then do
    failIf (!fPowAllowMinDifficultyBlocks && ((block.header.nVersion &&& BLOCK_VERSION_AUXPOW) != 0 &&
        block.header.getChainID != AUXPOW_CHAIN_ID))
      "CheckBlockProofOfWork() : block does not have our chain ID"
    match block.auxpow with
    | some aux => do
      (auxPoWCheck hash aux block.header.hash block.header.getChainID
          fPowAllowMinDifficultyBlocks).mapError fun _ => "CheckBlockProofOfWork() : AUX POW is not valid"
      failIf (!checkProofOfWork (uintToArith256 aux.parentBlockHeader.hash) block.nBits params)
        "CheckBlockProofOfWork() : AUX proof of work failed"
    | none =>
      failIf (!checkProofOfWork (uintToArith256 block.powHash) block.nBits params)
        "CheckBlockProofOfWork() : proof of work failed"
  else
    failIf (!checkProofOfWork (uintToArith256 block.powHash) block.nBits params)
      "CheckBlockProofOfWork() : proof of work failed"

/-- A merged-mined block under the version-5 rules: the version byte above 4, the auxpow bit
set, and the proof attached. -/
structure PowHeader.Merged (block : PowHeader) (aux : AuxPow) : Prop where
  version : 4 < block.header.getBlockVersion
  auxBit : (block.header.nVersion &&& BLOCK_VERSION_AUXPOW) ≠ 0
  attached : block.auxpow = some aux

/-- The inversion of CheckBlockProofOfWork on a merged-mined block: without the minimum-difficulty
rule it carries this chain's ID, its proof passes AuxPoWCheck for the block's hash, and the parent
header meets the target. -/
theorem checkBlockProofOfWork_merged_ok {block : PowHeader} {aux : AuxPow}
    {params : ConsensusParams} (merged : block.Merged aux)
    (accepted : checkBlockProofOfWork hash block params false = .ok ()) :
    block.header.getChainID = AUXPOW_CHAIN_ID ∧
      auxPoWCheck hash aux block.header.hash block.header.getChainID false = .ok () ∧
      checkProofOfWork (uintToArith256 aux.parentBlockHeader.hash) block.nBits params = true := by
  rw [checkBlockProofOfWork, if_pos merged.version, failIf_bind_eq_ok, merged.attached] at accepted
  obtain ⟨chainID, checked⟩ := accepted
  rw [unit_bind_eq_ok, mapError_eq_ok, failIf_eq_ok] at checked
  refine ⟨?_, checked.1, by simpa using checked.2⟩
  simpa [merged.auxBit] using chainID

/-- Under the main-network rules one parent coinbase certifies at most one merged-mined block
of this chain: two merged-mined blocks that pass CheckBlockProofOfWork with proofs over the same
parent coinbase have the same hash, when the hash is injective on what their chain branches
hash. -/
theorem checkBlockProofOfWork_sameParentWork {block block' : PowHeader} {aux aux' : AuxPow}
    {params : ConsensusParams} (merged : block.Merged aux) (merged' : block'.Merged aux')
    (sameCoinbase : aux.tx = aux'.tx)
    (accepted : checkBlockProofOfWork hash block params false = .ok ())
    (accepted' : checkBlockProofOfWork hash block' params false = .ok ())
    (collisionFree :
      ∀ x ∈ branchPairs hash block.header.hash aux.vChainMerkleBranch aux.nChainIndex.toNat,
      ∀ y ∈ branchPairs hash block'.header.hash aux'.vChainMerkleBranch aux'.nChainIndex.toNat,
        hash x.1 x.2 = hash y.1 y.2 → x = y) :
    block.header.hash = block'.header.hash := by
  obtain ⟨chainID, checked, -⟩ := checkBlockProofOfWork_merged_ok hash merged accepted
  obtain ⟨chainID', checked', -⟩ := checkBlockProofOfWork_merged_ok hash merged' accepted'
  -- both proofs were checked for this chain's ID
  rw [chainID] at checked
  rw [chainID'] at checked'
  exact (auxPoWCheck_ok hash checked).hashAuxBlock_eq sameCoinbase (auxPoWCheck_ok hash checked')
    collisionFree

theorem checkBlockProofOfWork_sameParentWork_sample :
    let leaf : Uint256 := ⟨List.replicate 32 7, rfl⟩
    let other : Uint256 := ⟨List.replicate 32 9, rfl⟩
    let aux : AuxPow :=
      { tx := ⟨leaf, pchMergedMiningHeader ++ List.replicate 32 7 ++ [2, 0, 0, 0, 0, 0, 0, 0]⟩
        vMerkleBranch := [], nIndex := 0, vChainMerkleBranch := [leaf], nChainIndex := 0
        parentBlockHeader := ⟨0, leaf, ⟨List.replicate 32 0, rfl⟩⟩ }
    let aux' : AuxPow :=
      { aux with vMerkleBranch := [other], parentBlockHeader := ⟨1, leaf, ⟨List.replicate 32 0, rfl⟩⟩ }
    -- version 5 with the auxpow bit and chain ID 666, over two different merkle roots
    let block : PowHeader := ⟨⟨666 * 65536 + 256 + 5, leaf, leaf⟩, 0x1d00ffff, leaf, some aux⟩
    let block' : PowHeader := ⟨⟨666 * 65536 + 256 + 5, other, leaf⟩, 0x1d00ffff, other, some aux'⟩
    block.header.hashMerkleRoot ≠ block'.header.hashMerkleRoot ∧ aux.vMerkleBranch ≠ aux'.vMerkleBranch ∧
      block.Merged aux ∧ block'.Merged aux' ∧
      checkBlockProofOfWork (fun a _ => a) block mainParams false = .ok () ∧
      checkBlockProofOfWork (fun a _ => a) block' mainParams false = .ok () ∧
      block.header.hash = block'.header.hash := by
  intro leaf other aux aux' block block'
  have merged : block.Merged aux := ⟨by decide, by decide, rfl⟩
  have merged' : block'.Merged aux' := ⟨by decide, by decide, rfl⟩
  have accepted : checkBlockProofOfWork (fun a _ => a) block mainParams false = .ok () := by decide
  have accepted' : checkBlockProofOfWork (fun a _ => a) block' mainParams false = .ok () := by decide
  exact ⟨by decide, by decide, merged, merged', accepted, accepted',
    checkBlockProofOfWork_sameParentWork (fun a _ => a) merged merged' rfl accepted accepted' (by decide)⟩

end Check

end MFCoin.Pow
