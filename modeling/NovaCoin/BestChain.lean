import NovaCoin.CheckBlock
import NovaCoin.Infra.Links

/-!
# The best chain

`AddToBlockIndex`, `SetBestChain`, `SetBestChainInner` and `Reorganize` as a state machine, with the
database as far as it records which chain is best.

A `CBlockIndex*` is the list of records from it down to the root. Two pointers are the same
exactly when these lists are, since `mapBlockIndex` has one record for each hash. `nMint` and
`nMoneySupply`, which `ConnectBlock` fills in later, are left as they are at first.

What reading, connecting and disconnecting a block or committing a batch comes to is an argument of
every call (`Outcomes`).
-/

namespace NovaCoin

/-! ## The database -/

/-- `CTxDB` with the key `hashBestChain` alone: what is on disk, and the open batch. -/
structure CTxDB where
  hashBestChain : Uint256
  activeBatch : Option (Option Uint256)
  deriving DecidableEq, Repr

namespace CTxDB

def txnBegin (txdb : CTxDB) : CTxDB := { txdb with activeBatch := some none }

def txnAbort (txdb : CTxDB) : CTxDB := { txdb with activeBatch := none }

/-- `TxnCommit`: LevelDB writes the whole batch or nothing, and the batch is gone. -/
def txnCommit (txdb : CTxDB) (ok : Bool) : CTxDB :=
  match txdb.activeBatch with
  | some (some hash) => ⟨if ok then hash else txdb.hashBestChain, none⟩
  | _ => txdb.txnAbort

def writeHashBestChain (txdb : CTxDB) (hash : Uint256) : CTxDB :=
  match txdb.activeBatch with
  | some _ => { txdb with activeBatch := some (some hash) }
  | none => { txdb with hashBestChain := hash }

end CTxDB

/-! ## Trust -/

/-- `nPoWBase`: the target of difficulty 1. -/
def nPoWBase : Int := 0xffff * 2 ^ 208

/-- The number of blocks of a kind among the last 12 (`pprev` and those before it). -/
def countLast12 (kind : CBlockIndex → Bool) (pprev : PIndex) : Nat :=
  match pprev with
  | [] => 0
  | prev :: _ => ((pprev.takeWhile fun i => prev.nHeight - i.nHeight < 12).filter kind).length

/-- The full score of a target. -/
def targetTrust (bnTarget : Int) : Int := (2 ^ 256 : Int).tdiv (bnTarget + 1)

/-- `CBlockIndex::GetBlockTrust`, on the type, `nBits` and the predecessors. -/
def getBlockTrust (fProofOfStake : Bool) (nBits : UInt32) (pprev : PIndex) : Uint256 :=
  let bnTarget := setCompact nBits
  if bnTarget ≤ 0 then 0
  else match pprev with
    | [] => 1
    | prev :: rest =>
      -- 1 for the first 12 blocks
      if prev.nHeight < 12 then 1
      else if fProofOfStake then
        let bnNewTrust := targetTrust bnTarget
        if !prev.isProofOfWork then getuint256 (bnNewTrust.tdiv 3)
        else if countLast12 CBlockIndex.isProofOfWork pprev < 3 then getuint256 (bnNewTrust.tdiv 3)
        else getuint256 bnNewTrust
      else
        let bnPoWTrust := max (nPoWBase.tdiv (bnTarget + 1)) 1
        let prevTrust := (rest.head?.map (·.nChainTrust)).getD 0
        let bnLastBlockTrust : Int := (prev.nChainTrust - prevTrust).toNat
        let twoThirds := getuint256 (bnPoWTrust + (2 * bnLastBlockTrust).tdiv 3)
        if !(prev.isProofOfStake && (rest.head?.map (·.isProofOfStake)).getD false) then twoThirds
        else if countLast12 CBlockIndex.isProofOfStake pprev < 7 then twoThirds
        else
          let bnPrevTarget := setCompact prev.nBits
          if bnPrevTarget ≤ 0 then 0 else getuint256 (bnPoWTrust + targetTrust bnPrevTarget)

/-! ## New records -/

def getBlockHash (pindex : PIndex) : Uint256 := (pindex.head?.map (·.hashBlock)).getD 0

def chainTrust (pindex : PIndex) : Uint256 := (pindex.head?.map (·.nChainTrust)).getD 0

def height (pindex : PIndex) : Int := (pindex.head?.map (·.nHeight)).getD 0

/-- The record `AddToBlockIndex` makes for a block whose parent is `pprev`. -/
def newBlockIndex (crypto : Crypto) (pprev : PIndex) (b : CBlock) (nFile nBlockPos : UInt32) :
    CBlockIndex :=
  { hashBlock := crypto.blockHash b, nFile, nBlockPos
    nChainTrust := chainTrust pprev + getBlockTrust b.isProofOfStake b.nBits pprev
    nHeight := if pprev.isEmpty then 0 else height pprev + 1
    nMint := 0, nMoneySupply := 0, fProofOfStake := b.isProofOfStake
    nTime := b.nTime, nBits := b.nBits }

/-! ## The state -/

structure ChainState where
  mapBlockIndex : Uint256 → Option PIndex
  /-- the `pnext` of the record with a hash -/
  pnext : Uint256 → Option Uint256
  /-- the hash of `pindexGenesisBlock` -/
  hashGenesisBlock : Uint256
  hashBestChain : Uint256
  pindexBest : PIndex
  nBestHeight : Int
  nBestChainTrust : Uint256
  nBestInvalidTrust : Uint256
  txdb : CTxDB

/-- The state when only the genesis block is known. -/
def ChainState.init (crypto : Crypto) (genesis : CBlock) (nFile nBlockPos : UInt32) : ChainState :=
  let pindexNew := newBlockIndex crypto [] genesis nFile nBlockPos
  { mapBlockIndex := fun h => if h = pindexNew.hashBlock then some [pindexNew] else none
    pnext := fun _ => none
    hashGenesisBlock := pindexNew.hashBlock
    hashBestChain := pindexNew.hashBlock
    pindexBest := [pindexNew]
    nBestHeight := pindexNew.nHeight
    nBestChainTrust := pindexNew.nChainTrust
    nBestInvalidTrust := 0
    txdb := ⟨pindexNew.hashBlock, none⟩ }

/-- The outcomes of what one call of `AddToBlockIndex` may try, at most once for each block, by its
hash. -/
structure Outcomes where
  /-- the checks of `AddToBlockIndex` before the record is inserted -/
  indexOk : Bool
  /-- `TxnCommit` for the new record -/
  commitIndex : Bool
  readFromDisk : Uint256 → Bool
  connectBlock : Uint256 → Bool
  disconnectBlock : Uint256 → Bool
  /-- `TxnCommit` for the best chain that ends at the block -/
  commit : Uint256 → Bool

/-! ## Switching -/

def invalidChainFound (st : ChainState) (pindexNew : PIndex) : ChainState :=
  if st.nBestInvalidTrust < chainTrust pindexNew then
    { st with nBestInvalidTrust := chainTrust pindexNew }
  else st

/-- `pindex->pprev->pnext = v`, if there is a `pprev`. -/
def setPnext (st : ChainState) (pindex : PIndex) (v : Option Uint256) : ChainState :=
  match pindex with
  | _ :: prev :: _ => { st with pnext := Links.set st.pnext prev.hashBlock v }
  | _ => st

/-- The inner loop of the search for the fork: back to a height, `none` past the root. -/
def walkBack (nHeight : Int) : PIndex → Option PIndex
  | [] => none
  | pindex :: pprev =>
    if nHeight < pindex.nHeight then walkBack nHeight pprev else some (pindex :: pprev)

/-- Finds the fork of `pfork` and `plonger`; `none` where a `pprev` is null. -/
def findFork : PIndex → PIndex → Option PIndex
  | [], _ => none
  | pfork :: pprev, plonger =>
    if pfork :: pprev = plonger then some plonger
    else match walkBack pfork.nHeight plonger with
      | none => none
      | some plonger =>
        if pfork :: pprev = plonger then some plonger else findFork pprev plonger

/-- The records from `pindex` back to `pfork`, without it. -/
def pathTo (pfork : PIndex) : PIndex → List PIndex
  | [] => []
  | pindex :: pprev =>
    if pindex :: pprev = pfork then [] else (pindex :: pprev) :: pathTo pfork pprev

/-- `Reorganize` gets through: the fork is found, every block disconnected or connected, the batch
committed. -/
def canReorganize (out : Outcomes) (pindexBest pindexNew : PIndex) : Option PIndex :=
  match findFork pindexBest pindexNew with
  | none => none
  | some pfork =>
    if (pathTo pfork pindexBest).all (fun pindex =>
          out.readFromDisk (getBlockHash pindex) && out.disconnectBlock (getBlockHash pindex)) &&
        (pathTo pfork pindexNew).reverse.all (fun pindex =>
          out.readFromDisk (getBlockHash pindex) && out.connectBlock (getBlockHash pindex)) &&
        out.commit (getBlockHash pindexNew) then some pfork
    else none

/-- The two loops of `Reorganize` over the links: off the shorter branch, onto the longer. -/
def relink (st : ChainState) (pfork pindexNew : PIndex) : ChainState :=
  let vDisconnect := pathTo pfork st.pindexBest
  let vConnect := (pathTo pfork pindexNew).reverse
  vConnect.foldl (fun st pindex => setPnext st pindex (some (getBlockHash pindex)))
    (vDisconnect.foldl (fun st pindex => setPnext st pindex none) st)

/-- `Reorganize`. Where it fails the caller aborts the batch. -/
def reorganize (out : Outcomes) (st : ChainState) (pindexNew : PIndex) : Option ChainState :=
  match canReorganize out st.pindexBest pindexNew with
  | none => none
  | some pfork =>
    let txdb := (st.txdb.writeHashBestChain (getBlockHash pindexNew)).txnCommit true
    some (relink { st with txdb } pfork pindexNew)

/-- `SetBestChainInner`: attaches a block to the new best chain being built. -/
def setBestChainInner (out : Outcomes) (st : ChainState) (pindexNew : PIndex) : ChainState × Bool :=
  let hash := getBlockHash pindexNew
  if !out.connectBlock hash then
    (invalidChainFound { st with txdb := st.txdb.txnAbort } pindexNew, false)
  else
    let st := { st with txdb := (st.txdb.writeHashBestChain hash).txnCommit (out.commit hash) }
    if !out.commit hash then (st, false)
    else (setPnext st pindexNew (some hash), true)

/-- The loop that postpones reconnects: `vpindexSecondary` and `pindexIntermediate`, the first block
of the new chain with more trust than the best one. -/
def postpone (nBestTrust : Uint256) : PIndex → List PIndex × PIndex
  | pindex :: prev :: pprev =>
    if nBestTrust < prev.nChainTrust then
      let (vpindexSecondary, pindexIntermediate) := postpone nBestTrust (prev :: pprev)
      ((pindex :: prev :: pprev) :: vpindexSecondary, pindexIntermediate)
    else ([], pindex :: prev :: pprev)
  | pindex => ([], pindex)

/-- The loop over the postponed blocks. It stops at the first that fails, and the caller is not
told. -/
def connectFurther (out : Outcomes) (st : ChainState) : List PIndex → ChainState
  | [] => st
  | pindex :: rest =>
    if !out.readFromDisk (getBlockHash pindex) then st
    else
      let (st, ok) := setBestChainInner out { st with txdb := st.txdb.txnBegin } pindex
      if ok then connectFurther out st rest else st

/-- The part of `SetBestChain` on the database and the links, with `false` where it returns early.
-/
def switchChain (out : Outcomes) (st : ChainState) (hashPrevBlock : Uint256) (pindexNew : PIndex) :
    ChainState × Bool :=
  let st := { st with txdb := st.txdb.txnBegin }
  if hashPrevBlock = st.hashBestChain then setBestChainInner out st pindexNew
  else
    let (vpindexSecondary, pindexIntermediate) := postpone (chainTrust st.pindexBest) pindexNew
    match reorganize out st pindexIntermediate with
    | none => (invalidChainFound { st with txdb := st.txdb.txnAbort } pindexNew, false)
    | some st => (connectFurther out st vpindexSecondary.reverse, true)

/-- The end of `SetBestChain`: the new best block. -/
def setBest (st : ChainState) (pindexNew : PIndex) : ChainState :=
  { st with
    hashBestChain := getBlockHash pindexNew
    pindexBest := pindexNew
    nBestHeight := height pindexNew
    nBestChainTrust := chainTrust pindexNew }

/-- `SetBestChain`, for a block that is not the genesis block. -/
def setBestChain (out : Outcomes) (st : ChainState) (hashPrevBlock : Uint256) (pindexNew : PIndex) :
    ChainState × Bool :=
  match switchChain out st hashPrevBlock pindexNew with
  | (st, false) => (st, false)
  | (st, true) => (setBest st pindexNew, true)

/-- `AddToBlockIndex`: the new state and the result. -/
def addToBlockIndex (crypto : Crypto) (st : ChainState) (b : CBlock) (nFile nBlockPos : UInt32)
    (out : Outcomes) : ChainState × Bool :=
  let hash := crypto.blockHash b
  if (st.mapBlockIndex hash).isSome || !out.indexOk then (st, false)
  else
    let pprev := (st.mapBlockIndex b.hashPrevBlock).getD []
    let pindexNew := newBlockIndex crypto pprev b nFile nBlockPos :: pprev
    let st := { st with
      mapBlockIndex := fun h => if h = hash then some pindexNew else st.mapBlockIndex h }
    if !out.commitIndex then (st, false)
    else if st.nBestChainTrust < chainTrust pindexNew then
      setBestChain out st b.hashPrevBlock pindexNew
    else (st, true)

end NovaCoin
