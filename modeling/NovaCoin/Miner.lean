import NovaCoin.Connect
import NovaCoin.Mempool
import NovaCoin.Script.Interpreter

/-!
# CreateNewBlock

The template of a new block: `Miner.scanTx` sorts the transactions of the memory pool into those
that can be taken at once and those that wait for others (`COrphan`), `Miner.collect` is the loop
over the priority queue, which adds a transaction if `mapTestPool` lets it (`Miner.addTx`) and
releases those that were waiting for it.

What is not decided by the source are parameters: `double` arithmetic (`Doubles`) and the order
`std::make_heap` and its relatives give to a vector (`StdHeap`).
-/

namespace NovaCoin

open Guard

/-! ## Priorities -/

/-- `double`, as far as priorities need it. -/
structure Doubles (D : Type) where
  ofInt : Int → D
  add : D → D → D
  mul : D → D → D
  div : D → D → D
  lt : D → D → Bool
  eq : D → D → Bool

/-- The heap functions of the standard library. `pop` is `pop_heap` followed by `pop_back`. -/
structure StdHeap (α : Type) where
  make : (α → α → Bool) → List α → List α
  push : (α → α → Bool) → List α → α → List α
  pop : (α → α → Bool) → List α → List α
  make_perm : ∀ comparer l, (make comparer l).Perm l
  push_perm : ∀ comparer l a, (push comparer l a).Perm (a :: l)
  pop_perm : ∀ comparer a l, (pop comparer (a :: l)).Perm l

/-- `dPriority`, `dFeePerKb` and the transaction. -/
abbrev TxPriority (D : Type) := D × D × CTransaction

def txPriorityCompare {D : Type} (ops : Doubles D) (byFee : Bool) (a b : TxPriority D) : Bool :=
  if byFee then
    if ops.eq a.2.1 b.2.1 then ops.lt a.1 b.1 else ops.lt a.2.1 b.2.1
  else
    if ops.eq a.1 b.1 then ops.lt a.2.1 b.2.1 else ops.lt a.1 b.1

/-- `COrphan`: a transaction that has to wait. A `COrphan*` is the txid of `ptx`. -/
structure COrphan (D : Type) where
  ptx : CTransaction
  setDependsOn : Finset Uint256
  dPriority : D
  dFeePerKb : D

/-! ## The state -/

/-- The options of the miner: `-blockmaxsize`, `-blockprioritysize`, `-blockminsize` and
`-mintxfee`. -/
structure MinerArgs where
  blockmaxsize : Nat := MAX_BLOCK_SIZE_GEN / 2
  blockprioritysize : Nat := 27000
  blockminsize : Nat := 0
  nMinTxFee : Int64 := MIN_TX_FEE

namespace MinerArgs

variable (args : MinerArgs)

def nBlockMaxSize : Nat := max 1000 (min (MAX_BLOCK_SIZE - 1000) args.blockmaxsize)

def nBlockPrioritySize : Nat := min args.nBlockMaxSize args.blockprioritysize

def nBlockMinSize : Nat := min args.nBlockMaxSize args.blockminsize

end MinerArgs

/-- What `CreateNewBlock` is called with and what it finds around it. -/
structure Miner (D : Type) where
  env : Env
  ops : Doubles D
  heap : StdHeap (TxPriority D)
  args : MinerArgs
  db : TxDB
  /-- `pindexBest` -/
  pindexPrev : PIndex
  mempool : CTxMemPool
  /-- the key id of the reserved key of `pwallet` -/
  keyID : CKeyID
  txCoinStake : Option CTransaction

/-- What the scan of the memory pool builds. -/
structure Scan (D : Type) where
  vOrphan : List (COrphan D)
  mapDependers : Uint256 → List Uint256
  vecPriority : List (TxPriority D)

/-- The variables of the loop over the inputs of a transaction. `porphan` is null while
`setDependsOn` is empty. -/
structure InputScan (D : Type) where
  setDependsOn : Finset Uint256
  mapDependers : Uint256 → List Uint256
  nTotalIn : Int64
  dPriority : D
  fMissingInputs : Bool

/-- The variables of the main loop that say what is tried next. -/
structure Queue (D : Type) where
  vecPriority : List (TxPriority D)
  fSortedByFee : Bool
  vOrphan : List (COrphan D)

/-- The variables of the main loop that say what has been taken. -/
structure Selected where
  mapTestPool : QueuedChanges
  nBlockSize : Nat
  nBlockSigOps : Nat
  nFees : Int64
  vtx : List CTransaction

/-! ## Scanning the memory pool -/

/-- `IsFinal`, at the height and time it takes when none are given. -/
def CTransaction.isFinal (tx : CTransaction) (nBestHeight nAdjustedTime : Int) : Bool :=
  let nLockTime : Int := tx.nLockTime.toNat
  tx.nLockTime == 0 ||
    nLockTime < (if nLockTime < LOCKTIME_THRESHOLD.toInt then nBestHeight else nAdjustedTime) ||
    tx.vin.all fun txin => txin.nSequence == 0xffffffff

/-- `CTransaction::ReadFromDisk` by an outpoint: the index entry and the output. -/
def readFromDisk (env : Env) (db : TxDB) (prevout : COutPoint) : Option (CTxIndex × CTxOut) :=
  (db.lookup prevout.hash).bind fun txindex =>
    (env.readTx txindex.pos).bind fun txPrev =>
      (txPrev.vout[prevout.n.toNat]?).map fun txout => (txindex, txout)

def getDepthInMainChain (env : Env) (pindexBest : PIndex) (txindex : CTxIndex) : Int :=
  match env.readBlockHeader txindex.pos.nFile txindex.pos.nBlockPos with
  | none => 0
  | some block =>
    match pindexBest.find? (·.hashBlock == env.crypto.blockHash block), pindexBest with
    | some pindex, best :: _ => 1 + best.nHeight - pindex.nHeight
    | _, _ => 0

namespace Miner

variable {D : Type} (m : Miner D)

/-- The surroundings with the pool. -/
def poolEnv : Env := m.env.withPool m.mempool

def fProofOfStake : Bool := m.txCoinStake.isSome

/-- The body of the loop over the inputs of `tx`. After the break nothing more happens. -/
def scanInput (tx : CTransaction) (s : InputScan D) (txin : CTxIn) : Except Reject (InputScan D) :=
  if s.fMissingInputs then .ok s
  else match readFromDisk m.env m.db txin.prevout with
    | some (txindex, txout) =>
      let nConf := getDepthInMainChain m.env m.pindexPrev txindex
      .ok { s with
        nTotalIn := s.nTotalIn + txout.nValue
        dPriority := m.ops.add s.dPriority
          (m.ops.mul (m.ops.ofInt txout.nValue.toInt) (m.ops.ofInt nConf)) }
    | none =>
      match m.mempool.mapTx.lookup txin.prevout.hash with
      | none => .ok { s with fMissingInputs := true }
      | some txPrev => do
        let txout ← getOr (txPrev.vout[txin.prevout.n.toNat]?) (.error "")
        pure { s with
          setDependsOn := insert txin.prevout.hash s.setDependsOn
          mapDependers := fun hash =>
            if hash = txin.prevout.hash then s.mapDependers hash ++ [m.env.txHash tx]
            else s.mapDependers hash
          nTotalIn := s.nTotalIn + txout.nValue }

/-- The end of the body of the loop over `mapTx`. -/
def scanned (tx : CTransaction) (s : Scan D) (r : InputScan D) : Except Reject (Scan D) :=
  -- `vOrphan.pop_back()` leaves the pointers in `mapDependers`
  if r.fMissingInputs then .ok { s with mapDependers := r.mapDependers }
  else do
    let nTxSize := m.ops.ofInt tx.getSerializeSize
    let nValueOut ← tx.getValueOut
    let dPriority := m.ops.div r.dPriority nTxSize
    let dFeePerKb := m.ops.div (m.ops.ofInt (r.nTotalIn - nValueOut).toInt)
      (m.ops.div nTxSize (m.ops.ofInt 1000))
    if r.setDependsOn = ∅ then
      pure { s with
        mapDependers := r.mapDependers
        vecPriority := s.vecPriority ++ [(dPriority, dFeePerKb, tx)] }
    else
      pure { s with
        mapDependers := r.mapDependers
        vOrphan := s.vOrphan ++ [⟨tx, r.setDependsOn, dPriority, dFeePerKb⟩] }

/-- The body of the loop over `mapTx`. -/
def scanTx (s : Scan D) (tx : CTransaction) : Except Reject (Scan D) :=
  let nBestHeight := (m.pindexPrev.head?.map (·.nHeight)).getD 0
  if tx.isCoinBase || tx.isCoinStake || !tx.isFinal nBestHeight m.env.getAdjustedTime then .ok s
  else do
    let r ← foldAll (m.scanInput tx) ⟨∅, s.mapDependers, 0, m.ops.ofInt 0, false⟩ tx.vin
    m.scanned tx s r

/-! ## The main loop -/

/-- The size limit, the limit on legacy sigops and the timestamp limit. -/
def isOverLimits (s : Selected) (tx : CTransaction) : Bool :=
  m.args.nBlockMaxSize ≤ s.nBlockSize + tx.getSerializeSize ||
    MAX_BLOCK_SIGOPS ≤ s.nBlockSigOps + tx.getLegacySigOpCount ||
    m.env.getAdjustedTime < (tx.nTime.toNat : Int) ||
    m.txCoinStake.any fun txCoinStake => txCoinStake.nTime < tx.nTime

/-- Free transactions are skipped past the minimum block size. -/
def isTooCheap (fSortedByFee : Bool) (dFeePerKb : D) (s : Selected) (tx : CTransaction) : Bool :=
  fSortedByFee && m.ops.lt dFeePerKb (m.ops.ofInt m.args.nMinTxFee.toInt) &&
    m.args.nBlockMinSize ≤ s.nBlockSize + tx.getSerializeSize

/-- Past the priority size, or without high-priority transactions, the queue is sorted by fee. -/
def sortByFee (q : Queue D) (dPriority : D) (s : Selected) (tx : CTransaction) : Queue D :=
  if !q.fSortedByFee && (m.args.nBlockPrioritySize ≤ s.nBlockSize + tx.getSerializeSize ||
      m.ops.lt dPriority (m.ops.ofInt (COIN * 144 / 250).toInt)) then
    { q with
      fSortedByFee := true
      vecPriority := m.heap.make (txPriorityCompare m.ops true) q.vecPriority }
  else q

/-- How `ConnectInputs` is called. -/
def connectArgs : ConnectArgs :=
  { posThisTx := .inMemory, pindexBlock := m.pindexPrev, fBlock := false, fMiner := true,
    fScriptChecks := true, flags := MANDATORY_SCRIPT_VERIFY_FLAGS, pvChecks := false }

/-- Adds a transaction if its inputs can be connected; `none` where the loop goes on without. -/
def addTx (s : Selected) (tx : CTransaction) : Except Reject (Option Selected) :=
  match fetchInputs m.poolEnv m.db s.mapTestPool false true tx with
  | .error _ => .ok none
  | .ok mapInputs => do
    let nValueIn ← tx.getValueIn mapInputs
    let nValueOut ← tx.getValueOut
    let nTxFees := nValueIn - nValueOut
    if nTxFees < tx.getMinFee s.nBlockSize true .GMF_BLOCK tx.getSerializeSize then pure none
    else do
      let nP2SHSigOps ← tx.getP2SHSigOpCount mapInputs
      let nTxSigOps := tx.getLegacySigOpCount + nP2SHSigOps
      if MAX_BLOCK_SIGOPS ≤ s.nBlockSigOps + nTxSigOps then pure none
      else match connectInputs m.poolEnv m.db mapInputs s.mapTestPool m.connectArgs tx with
        | .error _ => pure none
        | .ok (mapTestPoolTmp, _) => pure (some
            { mapTestPool := mapTestPoolTmp.insert (m.env.txHash tx)
                (CTxIndex.new .inMemory tx.vout.length)
              nBlockSize := s.nBlockSize + tx.getSerializeSize
              nBlockSigOps := s.nBlockSigOps + nTxSigOps
              nFees := s.nFees + nTxFees
              vtx := s.vtx ++ [tx] })

/-- The body of the loop over the transactions that depend on the one with txid `hash`. -/
def release (hash : Uint256) (q : Queue D) (porphan : Uint256) : Except Reject (Queue D) := do
  let orphan ← getOr (q.vOrphan.find? fun o => m.env.txHash o.ptx == porphan) (.error "")
  if orphan.setDependsOn = ∅ then pure q
  else
    let setDependsOn := orphan.setDependsOn.erase hash
    let q := { q with
      vOrphan := q.vOrphan.map fun o =>
        if m.env.txHash o.ptx == porphan then { o with setDependsOn } else o }
    if setDependsOn = ∅ then
      pure { q with
        vecPriority := m.heap.push (txPriorityCompare m.ops q.fSortedByFee) q.vecPriority
          (orphan.dPriority, orphan.dFeePerKb, orphan.ptx) }
    else pure q

/-- A transaction that was popped: it is skipped, tried in vain or added. -/
def tryTx (mapDependers : Uint256 → List Uint256) (q : Queue D) (s : Selected) (t : TxPriority D) :
    Except Reject (Queue D × Selected) :=
  let (dPriority, dFeePerKb, tx) := t
  if m.isOverLimits s tx || m.isTooCheap q.fSortedByFee dFeePerKb s tx then .ok (q, s)
  else do
    let q := m.sortByFee q dPriority s tx
    match ← m.addTx s tx with
    | none => pure (q, s)
    | some s =>
      let hash := m.env.txHash tx
      let q ← foldAll (m.release hash) q (mapDependers hash)
      pure (q, s)

/-- The loop over the priority queue. Every round takes another transaction of the pool off the
queue. -/
def collect (mapDependers : Uint256 → List Uint256) :
    Nat → Queue D × Selected → Except Reject (Queue D × Selected)
  | 0, qs => .ok qs
  | rounds + 1, (q, s) =>
    match q.vecPriority with
    | [] => .ok (q, s)
    | t :: _ => do
      let q := { q with
        vecPriority := m.heap.pop (txPriorityCompare m.ops q.fSortedByFee) q.vecPriority }
      let qs ← m.tryTx mapDependers q s t
      collect mapDependers rounds qs

/-! ## The block -/

/-- The coinbase; a proof-of-work block pays the reward and the fees to it. -/
def txCoinBase (nBits : UInt32) (nFees : Int64) : CTransaction :=
  { nVersion := 1
    nTime := match m.txCoinStake with
      | some txCoinStake => txCoinStake.nTime
      | none => UInt32.ofInt m.env.getAdjustedTime
    vin := [⟨COutPoint.null, [], 0xffffffff⟩]
    vout := match m.txCoinStake with
      | some _ => [CTxOut.empty]
      | none => [⟨getProofOfWorkReward m.env.fTestNet nBits + nFees, setDestination m.keyID⟩]
    nLockTime := 0 }

/-- The time of a block: that of the coinstake, or the latest of those it must not be before. -/
def blockTime (prev : CBlockIndex) (vtx : List CTransaction) : UInt32 :=
  match m.txCoinStake with
  | some txCoinStake => txCoinStake.nTime
  | none =>
    let nTime := UInt32.ofInt (max (getMedianTimePast m.pindexPrev + 1)
      { CBlock.null with vtx }.getMaxTransactionTime)
    let nTime := UInt32.ofInt (max nTime.toNat (pastDrift prev.getBlockTime))
    -- UpdateTime
    UInt32.ofInt (max nTime.toNat m.env.getAdjustedTime)

/-- The queue before the first round. -/
def queue (scan : Scan D) : Queue D :=
  let fSortedByFee := m.args.nBlockPrioritySize == 0
  { vecPriority := m.heap.make (txPriorityCompare m.ops fSortedByFee) scan.vecPriority
    fSortedByFee
    vOrphan := scan.vOrphan }

/-- Nothing is taken yet; some room is left for the header and the coinbase. -/
def selected : Selected := ⟨∅, 1000, 100, 0, []⟩

/-- `CreateNewBlock`, on a node `m`. -/
def createNewBlock : Except Reject CBlock := do
  let nBits := getNextTargetRequired m.env.fTestNet m.pindexPrev m.fProofOfStake
  let scan ← foldAll m.scanTx ⟨[], fun _ => [], []⟩ m.mempool.txs
  let (_, s) ← m.collect scan.mapDependers m.mempool.txs.length (m.queue scan, selected)
  let prev ← getOr m.pindexPrev.head? (.error "")
  let vtx := m.txCoinBase nBits s.nFees :: (m.txCoinStake.toList ++ s.vtx)
  pure { CBlock.null with
    hashPrevBlock := prev.hashBlock
    nTime := m.blockTime prev vtx
    nBits
    vtx }

end Miner

/-! ## The extra nonce -/

/-- `push_uint64`. -/
def pushUint64 (n : Nat) : CScript :=
  if 1 ≤ n && n ≤ 16 then [UInt8.ofNat n + (Op.OP_1.toByte - 1)] else pushData (getvch n)

/-- A block with another script in its coinbase. -/
def CBlock.setCoinbaseScript (b : CBlock) (scriptSig : CScript) : CBlock :=
  { b with vtx := b.vtx.modifyHead fun tx =>
      { tx with vin := tx.vin.modifyHead fun txin => { txin with scriptSig } } }

/-- `IncrementExtraNonce`, with its static `hashPrevBlock` and `nExtraNonce`. `none` where the
assertion fails. -/
def incrementExtraNonce (crypto : Crypto) (COINBASE_FLAGS : CScript) (pindexPrev : PIndex)
    (state : Uint256 × UInt32) (pblock : CBlock) : Option (CBlock × Uint256 × UInt32) :=
  let nExtraNonce := (if state.1 ≠ pblock.hashPrevBlock then 0 else state.2) + 1
  let nHeight := UInt32.ofInt ((pindexPrev.head?.map (·.nHeight)).getD 0 + 1)
  let scriptSig := pushUint64 nHeight.toNat ++ pushData (getvch nExtraNonce.toNat) ++ COINBASE_FLAGS
  let pblock := pblock.setCoinbaseScript scriptSig
  if scriptSig.length ≤ 100 then
    some ({ pblock with hashMerkleRoot := buildMerkleTree crypto pblock },
      pblock.hashPrevBlock, nExtraNonce)
  else none

end NovaCoin
