import NovaCoin.Mempool
import NovaCoin.Spec.Run

/-!
# The memory pool and the best chain

What `AcceptToMemoryPool`, `SetBestChainInner` and `Reorganize` do to the transaction index and the
memory pool. Which blocks a reorganization takes off and puts on is found in `BestChain.lean`; here
they are arguments. Where a call fails the batch of the database is aborted and the pool is not
touched, so the state is as before.
-/

namespace NovaCoin

open Guard

/-- `AcceptToMemoryPool` without the inputs, whose result is not looked at. -/
def CTxMemPool.resurrect (env : Env) (policy : Policy) (txdb : TxDB) (pindexBest : PIndex)
    (pool : CTxMemPool) (tx : CTransaction) : CTxMemPool :=
  (pool.accept env policy txdb pindexBest tx false).toOption.getD pool

/-- The transaction index, the blocks connected to it and `mempool`. -/
structure NodeState where
  txdb : TxDB
  chain : Chain
  mempool : CTxMemPool

namespace NodeState

def init : NodeState := ⟨∅, [], .empty⟩

/-- `AcceptToMemoryPool`. The surroundings have `pindexBest`. -/
def acceptToMemoryPool (env : Env) (policy : Policy) (pindexBest : PIndex) (st : NodeState)
    (tx : CTransaction) (fCheckInputs : Bool) : Except (Bool × Reject) NodeState := do
  let mempool ← st.mempool.accept env policy st.txdb pindexBest tx fCheckInputs
  pure { st with mempool }

/-- `ConnectBlock` on the tip of the chain. -/
def connectTip (env : Env) (base : PIndex) (st : NodeState) (block : CBlockIndex × CBlock) :
    Except Reject NodeState := do
  let (txdb, pindex) ← connectBlock env st.txdb block.1 (st.chain.pindex base) block.2 false
  pure { st with txdb, chain := (pindex, block.2) :: st.chain }

/-- `DisconnectBlock` of the tip of the chain. -/
def disconnectTip (crypto : Crypto) (st : NodeState) (block : CBlockIndex × CBlock) :
    Except Reject NodeState := do
  let txdb ← disconnectBlock crypto st.txdb block.2
  pure { st with txdb, chain := st.chain.tail }

/-- "Delete redundant memory transactions". -/
def deleteAll (crypto : Crypto) (st : NodeState) (vDelete : List CTransaction) : NodeState :=
  { st with mempool := vDelete.foldl (·.remove crypto) st.mempool }

/-- "Resurrect memory transactions that were in the disconnected branch". -/
def resurrectAll (env : Env) (policy : Policy) (pindexBest : PIndex) (st : NodeState)
    (vResurrect : List CTransaction) : NodeState :=
  { st with mempool := vResurrect.foldl (·.resurrect env policy st.txdb pindexBest) st.mempool }

def setBestChainInner (env : Env) (base : PIndex) (st : NodeState) (block : CBlockIndex × CBlock) :
    Except Reject NodeState := do
  let st ← st.connectTip env base block
  pure (st.deleteAll env.crypto block.2.vtx)

end NodeState

/-- The transactions that `Reorganize` queues to resurrect. -/
def vResurrect (vDisconnect : Chain) : List CTransaction :=
  vDisconnect.flatMap fun block => block.2.vtx.filter fun tx => !(tx.isCoinBase || tx.isCoinStake)

/-- The transactions that `Reorganize` queues to delete. -/
def vDelete (vConnect : List (CBlockIndex × CBlock)) : List CTransaction :=
  vConnect.flatMap fun block => block.2.vtx

/-- `Reorganize`: `nDisconnect` blocks off, then the blocks of `vConnect` on. -/
def NodeState.reorganize (env : Env) (policy : Policy) (base pindexBest : PIndex) (st : NodeState)
    (nDisconnect : Nat) (vConnect : List (CBlockIndex × CBlock)) : Except Reject NodeState := do
  let vDisconnect := st.chain.take nDisconnect
  let st ← foldAll (disconnectTip env.crypto) st vDisconnect
  let st ← foldAll (connectTip env base) st vConnect
  let st := st.resurrectAll env policy pindexBest (vResurrect vDisconnect)
  pure (st.deleteAll env.crypto (vDelete vConnect))

/-! ## Runs -/

/-- A call that changes the state. -/
inductive NodeStep
  | acceptToMemoryPool (env : Env) (policy : Policy) (pindexBest : PIndex) (tx : CTransaction)
  | setBestChainInner (env : Env) (block : CBlockIndex × CBlock)
  | reorganize (env : Env) (policy : Policy) (pindexBest : PIndex) (nDisconnect : Nat)
      (vConnect : List (CBlockIndex × CBlock))

namespace NodeStep

def env : NodeStep → Env
  | acceptToMemoryPool env _ _ _ => env
  | setBestChainInner env _ => env
  | reorganize env _ _ _ _ => env

/-- The blocks a call connects. -/
def blocks : NodeStep → List (CBlockIndex × CBlock)
  | acceptToMemoryPool _ _ _ _ => []
  | setBestChainInner _ block => [block]
  | reorganize _ _ _ _ vConnect => vConnect

/-- The transactions that are new to the node. -/
def txs : NodeStep → List CTransaction
  | acceptToMemoryPool _ _ _ tx => [tx]
  | setBestChainInner _ block => block.2.vtx
  | reorganize _ _ _ _ vConnect => vDelete vConnect

def run (base : PIndex) (st : NodeState) : NodeStep → Except Reject NodeState
  | acceptToMemoryPool env policy pindexBest tx =>
    (st.acceptToMemoryPool env policy pindexBest tx true).mapError (·.2)
  | setBestChainInner env block => st.setBestChainInner env base block
  | reorganize env policy pindexBest nDisconnect vConnect =>
    st.reorganize env policy base pindexBest nDisconnect vConnect

end NodeStep

/-- The states that calls lead to, if each meets a condition in the state it finds. Txids are unique
on `known` where this is needed, and `AppendBlockFile` never gives the number of a null position. -/
inductive NodeRun (crypto : Crypto) (base : PIndex) (known : Set CTransaction)
    (cond : NodeState → NodeStep → Prop) : NodeState → Prop
  | init : NodeRun crypto base known cond .init
  | step {st st' : NodeState} {call : NodeStep} (run : NodeRun crypto base known cond st)
      (henv : call.env.crypto = crypto) (hknown : ∀ tx ∈ call.txs, tx ∈ known)
      (nFile : ∀ block ∈ call.blocks, block.1.nFile ≠ 0xffffffff) (hcond : cond st call)
      (ok : call.run base st = .ok st') : NodeRun crypto base known cond st'

end NovaCoin
