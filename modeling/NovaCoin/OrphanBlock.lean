import NovaCoin.BestChain
import NovaCoin.Infra.AssocMap
import NovaCoin.Infra.WorkQueue

/-!
# ProcessBlock and the orphan blocks

`ProcessBlock` (`main.cpp`) with the blocks that wait for their parent.

What the checks of a block come to is an argument of every call, by the hash of the block
(`BlockOutcomes`). `mapProofOfStake` is filled before `AcceptBlock` wherever it is read, so it is left
out, as are the requests to the peer.
-/

namespace NovaCoin

/-- The kernel of a block: the output that is staked and the time of the coinstake. -/
abbrev Stake := COutPoint × UInt32

def CBlock.getProofOfStake (b : CBlock) : Stake :=
  match b.vtx with
  | _ :: tx :: _ =>
    if tx.isCoinStake then ((tx.vin.head?.map (·.prevout)).getD COutPoint.null, tx.nTime)
    else (COutPoint.null, 0)
  | _ => (COutPoint.null, 0)

/-- What the checks of a block come to in a call of `ProcessBlock`. -/
structure BlockOutcomes where
  checkBanned : Bool
  /-- `WantedByPendingSyncCheckpoint` -/
  fWanted : Bool
  checkBlock : Bool
  /-- the comparison with `bnRequired` -/
  checkTarget : Bool
  checkProofOfStake : Bool
  /-- the checks of `AcceptBlock` that follow the search for the parent, and `WriteToDisk` -/
  acceptOk : Bool
  nFile : UInt32
  nBlockPos : UInt32
  index : Outcomes

/-- The block index and the orphans. A `std::multimap` is the list of its entries, those of one key
in the order of insertion. -/
structure BlockNode where
  chain : ChainState
  mapOrphanBlocks : AList fun _ : Uint256 => CBlock
  mapOrphanBlocksByPrev : List (Uint256 × CBlock)
  setStakeSeen : Finset Stake
  setStakeSeenOrphan : Finset Stake

/-- A node without orphans. -/
def BlockNode.start (chain : ChainState) (setStakeSeen : Finset Stake) : BlockNode :=
  ⟨chain, ∅, [], setStakeSeen, ∅⟩

/-- The blocks that wait for a block, in the order of the multimap. -/
def BlockNode.waitingFor (node : BlockNode) (hashPrev : Uint256) : List CBlock :=
  (node.mapOrphanBlocksByPrev.filter fun entry => entry.1 == hashPrev).map (·.2)

section

variable (crypto : Crypto)

/-- `AcceptBlock`. With `indexOk` the record is in `mapBlockIndex`, whatever `AddToBlockIndex`
returns. -/
def acceptBlock (out : BlockOutcomes) (node : BlockNode) (b : CBlock) : BlockNode × Bool :=
  if (node.chain.mapBlockIndex (crypto.blockHash b)).isSome then (node, false)
  else if (node.chain.mapBlockIndex b.hashPrevBlock).isNone then (node, false)
  else if !out.acceptOk then (node, false)
  else
    let (chain, ok) := addToBlockIndex crypto node.chain b out.nFile out.nBlockPos out.index
    let setStakeSeen :=
      if out.index.indexOk && b.isProofOfStake then insert b.getProofOfStake node.setStakeSeen
      else node.setStakeSeen
    ({ node with chain, setStakeSeen }, ok)

/-- The queue of `ProcessBlock` beside the state of the node. -/
structure OrphanWork (N : Type) where
  node : N
  vWorkQueue : List Uint256

/-- What the loop over the orphans needs of the state `N`: the node in it, and `AcceptBlock`. -/
structure OrphanLoop (N : Type) where
  node : N → BlockNode
  setNode : N → BlockNode → N
  acceptBlock : BlockOutcomes → N → CBlock → N × Bool

namespace OrphanLoop

variable {N : Type} (loop : OrphanLoop N)

def modify (w : OrphanWork N) (f : BlockNode → BlockNode) : OrphanWork N :=
  { w with node := loop.setNode w.node (f (loop.node w.node)) }

/-- `if (pblockOrphan->AcceptBlock()) vWorkQueue.push_back(hashOrphanBlock)`. -/
def acceptOrphan (out : BlockOutcomes) (w : OrphanWork N) (pblockOrphan : CBlock) : OrphanWork N :=
  match loop.acceptBlock out w.node pblockOrphan with
  | (node, true) => ⟨node, w.vWorkQueue ++ [crypto.blockHash pblockOrphan]⟩
  | (node, false) => ⟨node, w.vWorkQueue⟩

/-- The part of the inner loop for the kind of the orphan. A kernel is only forgotten when
`CheckProofOfStake` succeeds. -/
def tryOrphan (out : BlockOutcomes) (w : OrphanWork N) (pblockOrphan : CBlock) : OrphanWork N :=
  if pblockOrphan.isProofOfStake then
    if out.checkProofOfStake then
      loop.modify (loop.acceptOrphan crypto out w pblockOrphan) fun node => { node with
        setStakeSeenOrphan := node.setStakeSeenOrphan.erase pblockOrphan.getProofOfStake }
    else w
  else loop.acceptOrphan crypto out w pblockOrphan

/-- The body of the inner loop. -/
def visitOrphanBlock (outs : Uint256 → BlockOutcomes) (w : OrphanWork N) (pblockOrphan : CBlock) :
    OrphanWork N :=
  let hashOrphanBlock := crypto.blockHash pblockOrphan
  loop.modify (loop.tryOrphan crypto (outs hashOrphanBlock) w pblockOrphan) fun node => { node with
    mapOrphanBlocks := node.mapOrphanBlocks.erase hashOrphanBlock }

/-- The body of the outer loop. -/
def visitPrevBlock (outs : Uint256 → BlockOutcomes) (w : OrphanWork N) (hashPrev : Uint256) :
    OrphanWork N :=
  let orphans := (loop.node w.node).waitingFor hashPrev
  loop.modify (orphans.foldl (loop.visitOrphanBlock crypto outs) w) fun node => { node with
    mapOrphanBlocksByPrev := node.mapOrphanBlocksByPrev.filter fun entry => entry.1 != hashPrev }

end OrphanLoop

abbrev BlockWork := OrphanWork BlockNode

/-- The loop on a node alone. -/
def blockLoop : OrphanLoop BlockNode := ⟨id, fun _ node => node, acceptBlock crypto⟩

def acceptOrphan : BlockOutcomes → BlockWork → CBlock → BlockWork :=
  (blockLoop crypto).acceptOrphan crypto

def visitOrphanBlock : (Uint256 → BlockOutcomes) → BlockWork → CBlock → BlockWork :=
  (blockLoop crypto).visitOrphanBlock crypto

def visitPrevBlock : (Uint256 → BlockOutcomes) → BlockWork → Uint256 → BlockWork :=
  (blockLoop crypto).visitPrevBlock crypto

/-- The branch of `ProcessBlock` for a block without parent. -/
def addOrphanBlock (out : BlockOutcomes) (node : BlockNode) (pblock : CBlock) :
    BlockWork × Bool :=
  let hash := crypto.blockHash pblock
  -- "Duplicate stake allowed only when there is orphan child block"
  if pblock.isProofOfStake && decide (pblock.getProofOfStake ∈ node.setStakeSeenOrphan) &&
      (node.waitingFor hash).isEmpty && !out.fWanted then (⟨node, []⟩, false)
  else
    (⟨{ node with
        setStakeSeenOrphan :=
          if pblock.isProofOfStake then insert pblock.getProofOfStake node.setStakeSeenOrphan
          else node.setStakeSeenOrphan
        mapOrphanBlocks := node.mapOrphanBlocks.insert hash pblock
        mapOrphanBlocksByPrev := node.mapOrphanBlocksByPrev ++ [(pblock.hashPrevBlock, pblock)] },
      []⟩, true)

/-- A call of `ProcessBlock`: the block, what the checks come to, and the signature without garbage.
-/
structure BlockCall where
  pblock : CBlock
  outs : Uint256 → BlockOutcomes
  vchBlockSig : List UInt8

/-- The checks of `ProcessBlock` before it looks for the parent. -/
def checkReceived (node : BlockNode) (call : BlockCall) : Bool :=
  let hash := crypto.blockHash call.pblock
  let out := call.outs hash
  (node.chain.mapBlockIndex hash).isNone && decide (hash ∉ node.mapOrphanBlocks) &&
    out.checkBanned &&
    !(call.pblock.isProofOfStake && decide (call.pblock.getProofOfStake ∈ node.setStakeSeen) &&
      (node.waitingFor hash).isEmpty && !out.fWanted) &&
    out.checkBlock && out.checkTarget

/-- The block after `ReserealizeBlockSignature`. -/
def BlockCall.received (call : BlockCall) : CBlock :=
  { call.pblock with vchBlockSig := call.vchBlockSig }

/-- `ProcessBlock`. In the queue are the hashes of accepted blocks; every round takes the next one,
and there are no more than orphans and the block itself. -/
def processBlock (node : BlockNode) (call : BlockCall) : Option (BlockWork × Bool) :=
  let hash := crypto.blockHash call.pblock
  let out := call.outs hash
  let pblock := call.received
  if !checkReceived crypto node call then some (⟨node, []⟩, false)
  else if (node.chain.mapBlockIndex pblock.hashPrevBlock).isNone then
    some (addOrphanBlock crypto out node pblock)
  else if pblock.isProofOfStake && !out.checkProofOfStake then some (⟨node, []⟩, false)
  else
    match acceptBlock crypto out node pblock with
    | (node, false) => some (⟨node, []⟩, false)
    | (node, true) =>
      (WorkQueue.run OrphanWork.vWorkQueue (visitPrevBlock crypto call.outs)
        (node.mapOrphanBlocks.keys.length + 2) 0 ⟨node, [hash]⟩).map fun w => (w, true)

/-- One block after the other. -/
def processBlocks (node : BlockNode) (calls : List BlockCall) : Option BlockNode :=
  calls.foldlM (fun node call => (processBlock crypto node call).map (·.1.node)) node

end

end NovaCoin
