import Mathlib.Data.List.AList
import NovaCoin.StakeModifier

/-!
# Building and loading the block index

`AddToBlockIndex` up to the point where the new record is in `mapBlockIndex`, the records it writes
to the database, and `LoadBlockIndex` up to the calculation of `nChainTrust` and the checksums, which
are in memory only.

`mapProofOfStake` is filled by `ProcessBlock` before it calls `AcceptBlock`; here it is an argument.
`setStakeSeen` and the fields `prevoutStake` and `nStakeTime` behind it are in `TxDb.lean`.
-/

namespace NovaCoin

open Guard

/-- `mapBlockIndex`. -/
abbrev BlockTree := AList fun _ : Uint256 => PFullIndex

/-! ## New records -/

/-- `nFlags` after `SetProofOfStake`, `SetStakeEntropyBit` and `SetStakeModifier`. -/
def recordFlags (fProofOfStake : Bool) (nEntropyBit : UInt32) (fGeneratedStakeModifier : Bool) :
    UInt32 :=
  (if fProofOfStake then BLOCK_PROOF_OF_STAKE else 0) |||
    (if nEntropyBit != 0 then BLOCK_STAKE_ENTROPY else 0) |||
    (if fGeneratedStakeModifier then BLOCK_STAKE_MODIFIER else 0)

theorem recordFlags_proofOfStake (fProofOfStake : Bool) (nEntropyBit : UInt32)
    (fGeneratedStakeModifier : Bool) : fProofOfStake =
      (recordFlags fProofOfStake nEntropyBit fGeneratedStakeModifier &&& BLOCK_PROOF_OF_STAKE != 0) := by
  unfold recordFlags
  cases fProofOfStake <;> cases nEntropyBit != 0 <;> cases fGeneratedStakeModifier <;> decide

/-- `hashProofOfStake` of a new record. -/
def recordedProof (mapProofOfStake : Uint256 → Option Uint256) (b : CBlock) (hash : Uint256) :
    Except String Uint256 :=
  if b.isProofOfStake then
    getOr (mapProofOfStake hash) "AddToBlockIndex() : hashProofOfStake not found in map"
  else .ok 0

/-- The record `AddToBlockIndex` makes for a block on `pprev`. Where an assertion fails there is no
checksum. -/
def fullRecord (params : ChainParams) (mapProofOfStake : Uint256 → Option Uint256)
    (mapBlockIndex : Uint256 → Option PFullIndex) (pprev : PFullIndex) (b : CBlock)
    (nFile nBlockPos : UInt32) : Except String FullIndex := do
  let pindexNew := newBlockIndex params.crypto pprev.pindex b nFile nBlockPos
  let nEntropyBit := b.getStakeEntropyBit params pindexNew.nHeight.toNat
  require (nEntropyBit ≤ 1) "AddToBlockIndex() : SetStakeEntropyBit() failed"
  let hashProofOfStake ← recordedProof mapProofOfStake b pindexNew.hashBlock
  let (nStakeModifier, fGeneratedStakeModifier) ←
    (computeNextStakeModifier params mapBlockIndex pprev b.nTime).mapError fun _ =>
      "AddToBlockIndex() : ComputeNextStakeModifier() failed"
  let nFlags := recordFlags b.isProofOfStake nEntropyBit fGeneratedStakeModifier
  let nStakeModifierChecksum ← getOr (getStakeModifierChecksum params pprev pindexNew.hashBlock nFlags
    hashProofOfStake nStakeModifier) "GetStakeModifierChecksum"
  require (checkStakeModifierCheckpoints params.fTestNet pindexNew.nHeight nStakeModifierChecksum)
    "AddToBlockIndex() : Rejected by stake modifier checkpoint"
  pure
    { pindexNew with
      nVersion := b.nVersion, hashMerkleRoot := b.hashMerkleRoot, nNonce := b.nNonce, nFlags,
      nStakeModifier, nStakeModifierChecksum, hashProofOfStake,
      flag := recordFlags_proofOfStake _ _ _ }

/-- `AddToBlockIndex` up to the insertion into `mapBlockIndex`. -/
def BlockTree.add (params : ChainParams) (mapProofOfStake : Uint256 → Option Uint256)
    (tree : BlockTree) (b : CBlock) (nFile nBlockPos : UInt32) : Except String BlockTree := do
  let hash := params.crypto.blockHash b
  require (hash ∉ tree) "AddToBlockIndex() : already exists"
  let pprev := (tree.lookup b.hashPrevBlock).getD []
  let pindexNew ← fullRecord params mapProofOfStake tree.lookup pprev b nFile nBlockPos
  pure (tree.insert hash (pindexNew :: pprev))

/-! ## The database -/

/-- `CDiskBlockIndex` as it is written: pointers are hashes, trust and checksum are left out. -/
structure CDiskBlockIndex where
  hashNext : Uint256
  nFile : UInt32
  nBlockPos : UInt32
  nHeight : Int
  nMint : Int64
  nMoneySupply : Int64
  nFlags : UInt32
  nStakeModifier : UInt64
  hashProofOfStake : Uint256
  nVersion : Int32
  hashPrev : Uint256
  hashMerkleRoot : Uint256
  nTime : UInt32
  nBits : UInt32
  nNonce : UInt32
  blockHash : Uint256
  deriving DecidableEq

namespace CDiskBlockIndex

/-- The block whose hash `GetBlockHash` takes. -/
def header (d : CDiskBlockIndex) : CBlock :=
  { nVersion := d.nVersion, hashPrevBlock := d.hashPrev, hashMerkleRoot := d.hashMerkleRoot,
    nTime := d.nTime, nBits := d.nBits, nNonce := d.nNonce, vtx := [], vchBlockSig := [] }

/-- `GetBlockHash`: the stored hash, for blocks older than a day if `fUseFastIndex` is on. -/
def getBlockHash (crypto : Crypto) (fUseFastIndex : Bool) (nAdjustedTime : Int) (d : CDiskBlockIndex) :
    Uint256 :=
  if fUseFastIndex && (d.nTime.toNat : Int) < nAdjustedTime - nOneDay && d.blockHash != 0 then d.blockHash
  else crypto.blockHash d.header

/-- `CDiskBlockIndex(pindex)` with the hash that `WriteBlockIndex` computes. The proof hash is
written for proof of stake only. -/
def new (crypto : Crypto) (pindex : FullIndex) (pprev : PFullIndex) (pnext : Option Uint256) :
    CDiskBlockIndex :=
  let d : CDiskBlockIndex :=
    { hashNext := pnext.getD 0, nFile := pindex.nFile, nBlockPos := pindex.nBlockPos,
      nHeight := pindex.nHeight, nMint := pindex.nMint, nMoneySupply := pindex.nMoneySupply,
      nFlags := pindex.nFlags, nStakeModifier := pindex.nStakeModifier,
      hashProofOfStake := if pindex.isProofOfStake then pindex.hashProofOfStake else 0,
      nVersion := pindex.nVersion, hashPrev := (pprev.head?.map (·.hashBlock)).getD 0,
      hashMerkleRoot := pindex.hashMerkleRoot, nTime := pindex.nTime, nBits := pindex.nBits,
      nNonce := pindex.nNonce, blockHash := 0 }
  { d with blockHash := crypto.blockHash d.header }

end CDiskBlockIndex

/-! ## Loading -/

/-- A record while `LoadBlockIndex` runs, with its pointers as hashes. -/
structure LoadedIndex where
  record : FullIndex
  pprev : Option Uint256
  pnext : Option Uint256

abbrev LoadedMap := AList fun _ : Uint256 => LoadedIndex

/-- `CBlockIndex()`. -/
def FullIndex.null (hashBlock : Uint256) : FullIndex :=
  { hashBlock, nFile := 0, nBlockPos := 0, nChainTrust := 0, nHeight := 0, nMint := 0,
    nMoneySupply := 0, fProofOfStake := false, nTime := 0, nBits := 0, nVersion := 0,
    hashMerkleRoot := 0, nNonce := 0, nFlags := 0, nStakeModifier := 0, nStakeModifierChecksum := 0,
    hashProofOfStake := 0, flag := rfl }

/-- `InsertBlockIndex`: the map and the pointer. -/
def insertBlockIndex (mapBlockIndex : LoadedMap) (hash : Uint256) : LoadedMap × Option Uint256 :=
  if hash = 0 then (mapBlockIndex, none)
  else if hash ∈ mapBlockIndex then (mapBlockIndex, some hash)
  else (mapBlockIndex.insert hash ⟨.null hash, none, none⟩, some hash)

/-- The fields that are taken from the database. -/
def CDiskBlockIndex.record (d : CDiskBlockIndex) (hashBlock : Uint256) : FullIndex :=
  { hashBlock, nFile := d.nFile, nBlockPos := d.nBlockPos, nChainTrust := 0, nHeight := d.nHeight,
    nMint := d.nMint, nMoneySupply := d.nMoneySupply,
    fProofOfStake := d.nFlags &&& BLOCK_PROOF_OF_STAKE != 0, nTime := d.nTime, nBits := d.nBits,
    nVersion := d.nVersion, hashMerkleRoot := d.hashMerkleRoot, nNonce := d.nNonce,
    nFlags := d.nFlags, nStakeModifier := d.nStakeModifier, nStakeModifierChecksum := 0,
    hashProofOfStake := d.hashProofOfStake, flag := rfl }

/-- One entry of the database. The hash 0 gives a null pointer, which is written to. -/
def loadEntry (crypto : Crypto) (fUseFastIndex : Bool) (nAdjustedTime : Int)
    (mapBlockIndex : LoadedMap) (diskindex : CDiskBlockIndex) : Except String LoadedMap := do
  let blockHash := diskindex.getBlockHash crypto fUseFastIndex nAdjustedTime
  let (mapBlockIndex, pindexNew) := insertBlockIndex mapBlockIndex blockHash
  let hash ← getOr pindexNew "null"
  let (mapBlockIndex, pprev) := insertBlockIndex mapBlockIndex diskindex.hashPrev
  let (mapBlockIndex, pnext) := insertBlockIndex mapBlockIndex diskindex.hashNext
  pure (mapBlockIndex.insert hash ⟨diskindex.record hash, pprev, pnext⟩)

/-- The records met by following `pprev`, at most `n` of them. -/
def followPprev (mapBlockIndex : LoadedMap) : Nat → Option Uint256 → PFullIndex
  | n + 1, some hash =>
    match mapBlockIndex.lookup hash with
    | some pindex => pindex.record :: followPprev mapBlockIndex n pindex.pprev
    | none => []
  | _, _ => []

theorem followPprev_succ {mapBlockIndex : LoadedMap} {hash : Uint256} {pindex : LoadedIndex}
    (h : mapBlockIndex.lookup hash = some pindex) (n : Nat) :
    followPprev mapBlockIndex (n + 1) (some hash) =
      pindex.record :: followPprev mapBlockIndex n pindex.pprev := by
  rw [followPprev, h]

/-- The body of the loop that calculates `nChainTrust` and the checksum. -/
def calculateTrust (params : ChainParams) (mapBlockIndex : LoadedMap) (hash : Uint256) :
    Except String LoadedMap := do
  let pindex ← getOr (mapBlockIndex.lookup hash) "null"
  let r := pindex.record
  let pprev := followPprev mapBlockIndex mapBlockIndex.keys.length pindex.pprev
  let nChainTrust := chainTrust pprev.pindex + getBlockTrust r.fProofOfStake r.nBits pprev.pindex
  let nStakeModifierChecksum ← getOr (getStakeModifierChecksum params pprev r.hashBlock r.nFlags
    r.hashProofOfStake r.nStakeModifier) "GetStakeModifierChecksum"
  require (checkStakeModifierCheckpoints params.fTestNet r.nHeight nStakeModifierChecksum)
    "CTxDB::LoadBlockIndex() : Failed stake modifier checkpoint"
  pure (mapBlockIndex.insert hash
    { pindex with record := { r with nChainTrust, nStakeModifierChecksum } })

/-- `vSortedByHeight`: all records by height. -/
structure SortedByHeight (mapBlockIndex : LoadedMap) (vSortedByHeight : List Uint256) : Prop where
  perm : vSortedByHeight.Perm mapBlockIndex.keys
  sorted : vSortedByHeight.Pairwise fun hash hash' =>
    ∀ pindex ∈ mapBlockIndex.lookup hash, ∀ pindex' ∈ mapBlockIndex.lookup hash',
      pindex.record.nHeight ≤ pindex'.record.nHeight

/-- `LoadBlockIndex` reads the entries of the database one after the other. -/
def readBlockIndex (crypto : Crypto) (fUseFastIndex : Bool) (nAdjustedTime : Int)
    (entries : List CDiskBlockIndex) : Except String LoadedMap :=
  foldAll (loadEntry crypto fUseFastIndex nAdjustedTime) ∅ entries

end NovaCoin
