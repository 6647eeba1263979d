import NovaCoin.Alert
import NovaCoin.OrphanBlock

/-!
# Synchronized checkpoints

`Checkpoints` (`checkpoints.cpp`): a block that a signed message has named and that the best chain
has to go through. A message can come before its block, and is then pending until
`AcceptPendingSyncCheckpoint` finds the block in the index.

`ProcessBlock` is the one of `OrphanBlock` with the checkpoint beside the node, and has its loop over
the orphans. The messages that are
kept for the peers are left out, and so is `SendSyncCheckpoint` at the end of `ProcessBlock` on the
node with the master key: it is a call of `ProcessSyncCheckpoint` of its own.
-/

namespace NovaCoin

open Guard

inductive CPMode
  | STRICT | ADVISORY | PERMISSIVE
  deriving DecidableEq, Repr

/-- The settings of the node. -/
structure SyncParams where
  fTestNet : Bool
  checkpointsMode : CPMode

/-- What `ReadFromDisk`, `SetBestChain` and `WriteSyncCheckpoint` come to for a checkpoint. -/
structure SyncOutcomes where
  readFromDisk : Bool
  index : Outcomes
  write : Bool

/-- The node with the hashes of `Checkpoints`. -/
structure SyncNode where
  node : BlockNode
  hashSyncCheckpoint : Uint256
  hashPendingCheckpoint : Uint256
  hashInvalidCheckpoint : Uint256

/-! ## The message -/

def strMasterPubKey : String :=
  "04a51b735f816de4ec3f891d5b38bbc91e1f7245c7c08d17990760b86b4d8fc3910a850ffecf73bfa8886f01739a0c4c4322201282d07b6e48ce931cc92af94850"

/-- A message as it is received: the serialized `CUnsignedSyncCheckpoint` and its signature. -/
structure CSyncCheckpoint where
  vchMsg : List UInt8
  vchSig : List UInt8

/-- `CSyncCheckpoint::CheckSignature`: the block that the message names. -/
def CSyncCheckpoint.checkSignature (crypto : Crypto) (msg : CSyncCheckpoint) :
    Except String Uint256 := do
  require (crypto.verify (parseHex strMasterPubKey.toList) (crypto.hash msg.vchMsg) msg.vchSig)
    "CSyncCheckpoint::CheckSignature() : verify signature failed"
  let (_nVersion, sMsg) ← readInt32 (CDataStream.new msg.vchMsg)
  let (hashCheckpoint, _) ← readUint256 sMsg
  pure hashCheckpoint

/-! ## Checks -/

def ChainState.isInMainChain (st : ChainState) (pindex : PIndex) : Bool :=
  (st.pnext (getBlockHash pindex)).isSome || pindex == st.pindexBest

namespace SyncNode

/-- The record of a hash. -/
def find (st : SyncNode) (hash : Uint256) : Option PIndex := st.node.chain.mapBlockIndex hash

/-- `CheckSync`. The checkpoint is asserted to be known. -/
def checkSync (params : SyncParams) (st : SyncNode) (hashBlock : Uint256) (pindexPrev : PIndex) :
    Bool :=
  if params.fTestNet then true
  else match st.find st.hashSyncCheckpoint with
    | none => false
    | some pindexSync =>
      let nHeight := height pindexPrev + 1
      if height pindexSync < nHeight then
        match walkBack (height pindexSync) pindexPrev with
        | none => false
        | some pindex => !(height pindex < height pindexSync ||
            getBlockHash pindex != st.hashSyncCheckpoint)
      else if nHeight = height pindexSync then hashBlock == st.hashSyncCheckpoint
      else (st.find hashBlock).isSome

/-- `ValidateSyncCheckpoint`: only a descendant of the checkpoint is allowed; a conflict is
remembered. -/
def validateSyncCheckpoint (st : SyncNode) (hashCheckpoint : Uint256) : SyncNode × Bool :=
  match st.find st.hashSyncCheckpoint, st.find hashCheckpoint with
  | some pindexSyncCheckpoint, some pindexCheckpointRecv =>
    if height pindexCheckpointRecv ≤ height pindexSyncCheckpoint then
      match walkBack (height pindexCheckpointRecv) pindexSyncCheckpoint with
      | none => (st, false)
      | some pindex =>
        if getBlockHash pindex ≠ hashCheckpoint then
          ({ st with hashInvalidCheckpoint := hashCheckpoint }, false)
        else (st, false)
    else
      match walkBack (height pindexSyncCheckpoint) pindexCheckpointRecv with
      | none => (st, false)
      | some pindex =>
        if getBlockHash pindex ≠ st.hashSyncCheckpoint then
          ({ st with hashInvalidCheckpoint := hashCheckpoint }, false)
        else (st, true)
  | _, _ => (st, false)

/-! ## Moving the checkpoint -/

/-- The best chain is taken through the block, if it is not yet. The block is the one on disk, on
the parent of its record. -/
def reachCheckpoint (out : SyncOutcomes) (st : SyncNode) (hashCheckpoint : Uint256) :
    SyncNode × Bool :=
  let pindexCheckpoint := (st.find hashCheckpoint).getD []
  if st.node.chain.isInMainChain pindexCheckpoint then (st, true)
  else if !out.readFromDisk then (st, false)
  else
    match setBestChain out.index st.node.chain (getBlockHash pindexCheckpoint.tail) pindexCheckpoint with
    | (chain, true) => ({ st with node := { st.node with chain } }, true)
    | (chain, false) =>
      ({ st with node := { st.node with chain }, hashInvalidCheckpoint := hashCheckpoint }, false)

/-- What follows a successful `ValidateSyncCheckpoint`, up to `WriteSyncCheckpoint`. -/
def moveCheckpoint (out : SyncOutcomes) (st : SyncNode) (hashCheckpoint : Uint256) :
    SyncNode × Bool :=
  match reachCheckpoint out st hashCheckpoint with
  | (st, false) => (st, false)
  | (st, true) =>
    if !out.write then (st, false)
    else ({ st with hashSyncCheckpoint := hashCheckpoint, hashPendingCheckpoint := 0 }, true)

def acceptPendingSyncCheckpoint (out : SyncOutcomes) (st : SyncNode) : SyncNode × Bool :=
  if st.hashPendingCheckpoint != 0 && (st.find st.hashPendingCheckpoint).isSome then
    match st.validateSyncCheckpoint st.hashPendingCheckpoint with
    | (st, false) => ({ st with hashPendingCheckpoint := 0 }, false)
    | (st, true) => moveCheckpoint out st st.hashPendingCheckpoint
  else (st, false)

/-- `ProcessSyncCheckpoint`. A message whose block is not known is kept as the pending one. -/
def processSyncCheckpoint (crypto : Crypto) (out : SyncOutcomes) (st : SyncNode)
    (msg : CSyncCheckpoint) : SyncNode × Bool :=
  match msg.checkSignature crypto with
  | .error _ => (st, false)
  | .ok hashCheckpoint =>
    if (st.find hashCheckpoint).isNone then
      ({ st with hashPendingCheckpoint := hashCheckpoint }, false)
    else
      match st.validateSyncCheckpoint hashCheckpoint with
      | (st, false) => (st, false)
      | (st, true) => moveCheckpoint out st hashCheckpoint

/-! ## Blocks -/

section ProcessBlock

variable (crypto : Crypto) (params : SyncParams)

def acceptBlock (out : BlockOutcomes) (sync : SyncOutcomes) (st : SyncNode) (b : CBlock) :
    SyncNode × Bool :=
  let pindexPrev := (st.find b.hashPrevBlock).getD []
  if params.checkpointsMode = .STRICT ∧
      st.checkSync params (crypto.blockHash b) pindexPrev = false then (st, false)
  else
    match NovaCoin.acceptBlock crypto out st.node b with
    | (node, false) => ({ st with node }, false)
    | (node, true) => ((acceptPendingSyncCheckpoint sync { st with node }).1, true)

end ProcessBlock

end SyncNode

/-- A call of `ProcessBlock`, with what comes of the pending checkpoint after each accepted block.
-/
structure SyncBlockCall extends BlockCall where
  syncs : Uint256 → SyncOutcomes

section ProcessBlock

variable (crypto : Crypto) (params : SyncParams) (call : SyncBlockCall)

/-- The loop over the orphans with the checkpoint beside the node. -/
def SyncBlockCall.orphanLoop : OrphanLoop SyncNode where
  node st := st.node
  setNode st node := { st with node }
  acceptBlock out st b := st.acceptBlock crypto params out (call.syncs (crypto.blockHash b)) b

/-- The outer loop from position `i` on, for at most so many rounds. -/
def SyncBlockCall.rounds : Nat → Nat → OrphanWork SyncNode → OrphanWork SyncNode
  | 0, _, w => w
  | n + 1, i, w =>
    match w.vWorkQueue[i]? with
    | none => w
    | some hashPrev =>
      rounds n (i + 1) ((call.orphanLoop crypto params).visitPrevBlock crypto call.outs w hashPrev)

/-- `ProcessBlock`, with so many rounds of the loop over the orphans, which ends with the queue;
more rounds give the same. -/
def SyncNode.processBlock (nRounds : Nat) (st : SyncNode) : SyncNode :=
  let hash := crypto.blockHash call.pblock
  let out := call.outs hash
  let pblock := call.received
  if !checkReceived crypto st.node call.toBlockCall then st
  else if (st.find pblock.hashPrevBlock).isNone then
    { st with node := (addOrphanBlock crypto out st.node pblock).1.node }
  else if pblock.isProofOfStake && !out.checkProofOfStake then st
  else
    match st.acceptBlock crypto params out (call.syncs hash) pblock with
    | (st, false) => st
    | (st, true) => (call.rounds crypto params nRounds 0 ⟨st, [hash]⟩).node

end ProcessBlock

/-! ## Runs -/

inductive SyncCall
  | processBlock (call : SyncBlockCall) (nRounds : Nat)
  | processSyncCheckpoint (msg : CSyncCheckpoint) (out : SyncOutcomes)
  | acceptPendingSyncCheckpoint (out : SyncOutcomes)

namespace SyncNode

variable (crypto : Crypto) (params : SyncParams)

def step (st : SyncNode) : SyncCall → SyncNode
  | .processBlock call nRounds => st.processBlock crypto params call nRounds
  | .processSyncCheckpoint msg out => (st.processSyncCheckpoint crypto out msg).1
  | .acceptPendingSyncCheckpoint out => (st.acceptPendingSyncCheckpoint out).1

/-- One call after the other. -/
def run (st : SyncNode) (calls : List SyncCall) : SyncNode := calls.foldl (step crypto params) st

end SyncNode

end NovaCoin
