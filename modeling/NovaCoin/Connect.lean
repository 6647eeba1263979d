import NovaCoin.Inputs

/-!
# ConnectBlock and DisconnectBlock

`ConnectBlock` collects the changes of a block to the transaction index in `mapQueuedChanges` and
writes them key by key at the end. `DisconnectBlock` changes the index itself, transaction by
transaction from the last.

The records of the block index that both write to the database are not modelled here: they are
written again from memory with every change of the best chain, and neither function reads them.
-/

namespace NovaCoin

open Guard

/-- `CBlock()`: `nVersion` is `CURRENT_VERSION`, everything else is zero. -/
def CBlock.null : CBlock := ⟨6, 0, 0, 0, 0, 0, [], []⟩

/-- The flags `ConnectBlock` verifies the scripts of a transaction under. -/
def connectBlockFlags (nTime : UInt32) : UInt32 :=
  SCRIPT_VERIFY_NOCACHE ||| SCRIPT_VERIFY_P2SH |||
    (if CHECKLOCKTIMEVERIFY_SWITCH_TIME ≤ nTime then SCRIPT_VERIFY_CHECKLOCKTIMEVERIFY else 0) |||
    (if CHECKSEQUENCEVERIFY_SWITCH_TIME ≤ nTime then SCRIPT_VERIFY_CHECKSEQUENCEVERIFY else 0)

/-- What the loop of `ConnectBlock` over the transactions changes. -/
structure ConnectState where
  mapQueuedChanges : QueuedChanges
  nFees : Int64
  nValueIn : Int64
  nValueOut : Int64
  nSigOps : Nat
  nTxPos : UInt32
  /-- the script checks given to `control` -/
  vChecks : List CScriptCheck

/-- The position of the first transaction of a block. For a block that is only checked it is what
`FetchInputs` reads as the memory pool. -/
def firstTxPos (pindex : CBlockIndex) (b : CBlock) (fJustCheck : Bool) : UInt32 :=
  if fJustCheck then 1
  else pindex.nBlockPos + UInt32.ofNat CBlock.null.getSerializeSize -
    UInt32.ofNat (2 * getSizeOfCompactSize 0) + UInt32.ofNat (getSizeOfCompactSize b.vtx.length)

/-- The position after a transaction. -/
def nextTxPos (fJustCheck : Bool) (nTxPos : UInt32) (tx : CTransaction) : UInt32 :=
  if fJustCheck then nTxPos else nTxPos + UInt32.ofNat tx.getSerializeSize

/-- BIP30: the transaction would overwrite one that is not completely spent. -/
def overwritesUnspent (db : TxDB) (hashTx : Uint256) : Bool :=
  match db.lookup hashTx with
  | some txindexOld => txindexOld.vSpent.any CDiskTxPos.isNull
  | none => false

/-- The body of the loop of `ConnectBlock` for a transaction with inputs. -/
def connectSpends (env : Env) (db : TxDB) (pindex : PIndex) (fScriptChecks : Bool)
    (posThisTx : CDiskTxPos) (s : ConnectState) (tx : CTransaction) : Except Reject ConnectState := do
  let mapInputs ← (fetchInputs env db s.mapQueuedChanges true false tx).mapError (·.2)
  let nP2SHSigOps ← tx.getP2SHSigOpCount mapInputs
  require (s.nSigOps + nP2SHSigOps ≤ MAX_BLOCK_SIGOPS) ⟨100, "ConnectBlock() : too many sigops"⟩
  let nTxValueIn ← tx.getValueIn mapInputs
  let nTxValueOut ← tx.getValueOut
  let (mapQueuedChanges, vChecks) ← connectInputs env db mapInputs s.mapQueuedChanges
    { posThisTx, pindexBlock := pindex, fBlock := true, fMiner := false, fScriptChecks,
      flags := connectBlockFlags tx.nTime, pvChecks := env.nScriptCheckThreads != 0 } tx
  pure
    { s with
      mapQueuedChanges
      nFees := if tx.isCoinStake then s.nFees else s.nFees + (nTxValueIn - nTxValueOut)
      nValueIn := s.nValueIn + nTxValueIn
      nValueOut := s.nValueOut + nTxValueOut
      nSigOps := s.nSigOps + nP2SHSigOps
      vChecks := s.vChecks ++ vChecks }

/-- The two branches of the loop of `ConnectBlock`. -/
def connectAmounts (env : Env) (db : TxDB) (pindex : PIndex) (fScriptChecks : Bool)
    (posThisTx : CDiskTxPos) (s : ConnectState) (tx : CTransaction) : Except Reject ConnectState :=
  if tx.isCoinBase then do
    let nTxValueOut ← tx.getValueOut
    pure { s with nValueOut := s.nValueOut + nTxValueOut }
  else connectSpends env db pindex fScriptChecks posThisTx s tx

/-- The body of the loop of `ConnectBlock`. -/
def connectTx (env : Env) (db : TxDB) (pindex : PIndex) (fJustCheck fScriptChecks : Bool)
    (s : ConnectState) (tx : CTransaction) : Except Reject ConnectState := do
  let hashTx := env.txHash tx
  require (!overwritesUnspent db hashTx) (.error "")
  let nSigOps := s.nSigOps + tx.getLegacySigOpCount
  require (nSigOps ≤ MAX_BLOCK_SIGOPS) ⟨100, "ConnectBlock() : too many sigops"⟩
  let block ← getOr pindex.head? (.error "")
  let posThisTx : CDiskTxPos := ⟨block.nFile, block.nBlockPos, s.nTxPos⟩
  let nTxPos := nextTxPos fJustCheck s.nTxPos tx
  let s ← connectAmounts env db pindex fScriptChecks posThisTx { s with nSigOps, nTxPos } tx
  pure { s with
    mapQueuedChanges := s.mapQueuedChanges.insert hashTx (CTxIndex.new posThisTx tx.vout.length) }

/-- The check of the coinbase of a proof-of-work block. -/
def checkCoinbaseReward (env : Env) (b : CBlock) (nFees : Int64) : Except Reject Unit :=
  if b.isProofOfWork then do
    let coinbase ← getOr b.vtx.head? (.error "")
    let nValueOut ← coinbase.getValueOut
    require (nValueOut ≤ getProofOfWorkReward env.fTestNet b.nBits + nFees)
      (.error "CheckBlock() : coinbase reward exceeded")
  else .ok ()

/-- `UpdateTxIndex` for every queued change. -/
def writeQueuedChanges (db : TxDB) (mapQueuedChanges : QueuedChanges) : TxDB :=
  mapQueuedChanges.entries.foldl (fun db change => db.insert change.1 change.2) db

/-- The state before the first transaction. -/
def ConnectState.init (pindex : CBlockIndex) (b : CBlock) (fJustCheck : Bool) : ConnectState :=
  { mapQueuedChanges := ∅, nFees := 0, nValueIn := 0, nValueOut := 0, nSigOps := 0,
    nTxPos := firstTxPos pindex b fJustCheck, vChecks := [] }

/-- `ConnectBlock` for the record `pindex` on top of `pprev`: the new transaction index, and the
record with `nMint` and `nMoneySupply`. -/
def connectBlock (env : Env) (db : TxDB) (pindex : CBlockIndex) (pprev : PIndex) (b : CBlock)
    (fJustCheck : Bool) : Except Reject (TxDB × CBlockIndex) := do
  checkBlock env b (!fJustCheck) (!fJustCheck) false
  let fScriptChecks := env.getTotalBlocksEstimate ≤ pindex.nHeight
  let s ← foldAll (connectTx env db (pindex :: pprev) fJustCheck fScriptChecks)
    (.init pindex b fJustCheck) b.vtx
  -- control.Wait()
  require (s.vChecks.all (·.run env.crypto)) ⟨100, ""⟩
  checkCoinbaseReward env b s.nFees
  let pindex := { pindex with
    nMint := s.nValueOut - s.nValueIn + s.nFees
    nMoneySupply := (pprev.head?.map (·.nMoneySupply)).getD 0 + s.nValueOut - s.nValueIn }
  pure (if fJustCheck then db else writeQueuedChanges db s.mapQueuedChanges, pindex)

def disconnectBlock (crypto : Crypto) (db : TxDB) (b : CBlock) : Except Reject TxDB :=
  foldAll (disconnectInputs crypto) db b.vtx.reverse

end NovaCoin
