import Mathlib.Data.Finmap
import NovaCoin.CheckBlock
import NovaCoin.Script.Interpreter

/-!
# The inputs of a transaction

`FetchInputs`, `ConnectInputs` and `DisconnectInputs` with what they use. The transaction index
on disk is a finite map; changes that are not written yet are in `mapTestPool`, which is read
first. Writes to the database do not fail here: all of them happen while a batch is open, and
then `CTxDB::Write` only adds to it.
-/

namespace NovaCoin

open Guard

/-- The transaction index of the database. -/
abbrev TxDB := Finmap fun _ : Uint256 => CTxIndex

/-- `mapTestPool` and `mapQueuedChanges`: proposed changes to the index. -/
abbrev QueuedChanges := AList fun _ : Uint256 => CTxIndex

abbrev MapPrevTx := Uint256 → Option (CTxIndex × CTransaction)

def MapPrevTx.insert (inputs : MapPrevTx) (hash : Uint256) (prev : CTxIndex × CTransaction) :
    MapPrevTx :=
  fun h => if h = hash then some prev else inputs h

/-! ## Fetching -/

/-- The index entry of a previous transaction: proposed changes come before the database. -/
def readTxIndex (db : TxDB) (mapTestPool : QueuedChanges) (fBlock fMiner : Bool) (hash : Uint256) :
    Option CTxIndex :=
  if fBlock || fMiner then (mapTestPool.lookup hash).or (db.lookup hash) else db.lookup hash

/-- The previous transaction: from the memory pool or, by its position, from disk. -/
def readPrev (env : Env) (hash : Uint256) (pos : Option CDiskTxPos) :
    Except (Bool × Reject) CTransaction :=
  match pos with
  | some p =>
    if p == CDiskTxPos.inMemory then
      getOr (env.mempool hash) (false, .error "FetchInputs() : mempool Tx prev not found")
    else getOr (env.readTx p) (false, .error "FetchInputs() : ReadFromDisk prev tx failed")
  | none => getOr (env.mempool hash) (false, .error "FetchInputs() : mempool Tx prev not found")

/-- The body of the first loop of `FetchInputs`. The flag of an error is `fInvalid`. -/
def fetchInput (env : Env) (db : TxDB) (mapTestPool : QueuedChanges) (fBlock fMiner : Bool)
    (inputs : MapPrevTx) (txin : CTxIn) : Except (Bool × Reject) MapPrevTx :=
  let hash := txin.prevout.hash
  if (inputs hash).isSome then .ok inputs
  else match readTxIndex db mapTestPool fBlock fMiner hash with
    | some txindex => do
      let txPrev ← readPrev env hash (some txindex.pos)
      pure (inputs.insert hash (txindex, txPrev))
    | none => do
      require (!(fBlock || fMiner)) (false, .error "FetchInputs() : prev tx index entry not found")
      let txPrev ← readPrev env hash none
      pure (inputs.insert hash (CTxIndex.new CDiskTxPos.null txPrev.vout.length, txPrev))

/-- The body of the second loop of `FetchInputs`. -/
def checkOutPoint (inputs : MapPrevTx) (txin : CTxIn) : Except (Bool × Reject) Unit := do
  let (txindex, txPrev) ← getOr (inputs txin.prevout.hash) (false, .error "")
  require (txin.prevout.n.toNat < txPrev.vout.length && txin.prevout.n.toNat < txindex.vSpent.length)
    (true, ⟨100, "FetchInputs() : prevout.n out of range"⟩)

def fetchInputs (env : Env) (db : TxDB) (mapTestPool : QueuedChanges) (fBlock fMiner : Bool)
    (tx : CTransaction) : Except (Bool × Reject) MapPrevTx :=
  if tx.isCoinBase then .ok fun _ => none
  else do
    let inputs ← foldAll (fetchInput env db mapTestPool fBlock fMiner) (fun _ => none) tx.vin
    forAll (checkOutPoint inputs) tx.vin
    pure inputs

/-- `CTransaction::GetOutputFor`, which throws. -/
def getOutputFor (inputs : MapPrevTx) (txin : CTxIn) : Except Reject CTxOut := do
  let (_, txPrev) ← getOr (inputs txin.prevout.hash)
    (.error "CTransaction::GetOutputFor() : prevout.hash not found")
  getOr (txPrev.vout[txin.prevout.n.toNat]?)
    (.error "CTransaction::GetOutputFor() : prevout.n out of range")

/-- `GetValueIn`: the total wraps silently. -/
def CTransaction.getValueIn (tx : CTransaction) (inputs : MapPrevTx) : Except Reject Int64 :=
  if tx.isCoinBase then .ok 0
  else foldAll (fun nResult txin => do
    let txout ← getOutputFor inputs txin
    pure (nResult + txout.nValue)) 0 tx.vin

/-- `GetP2SHSigOpCount`, on the fetched inputs. -/
def CTransaction.getP2SHSigOpCount (tx : CTransaction) (inputs : MapPrevTx) : Except Reject Nat :=
  if tx.isCoinBase then .ok 0
  else foldAll (fun nSigOps txin => do
    let prevout ← getOutputFor inputs txin
    pure (if isPayToScriptHash prevout.scriptPubKey then
      nSigOps + NovaCoin.getP2SHSigOpCount prevout.scriptPubKey txin.scriptSig else nSigOps)) 0 tx.vin

/-! ## Fees and coin age -/

inductive GetMinFeeMode
  | GMF_BLOCK | GMF_RELAY | GMF_SEND
  deriving DecidableEq, Repr

/-- `CTransaction::GetMinFee`, in 64 bits. -/
def CTransaction.getMinFee (tx : CTransaction) (nBlockSize : Nat) (fAllowFree : Bool)
    (mode : GetMinFeeMode) (nBytes : Nat) : Int64 :=
  let nMinTxFee := if tx.isCoinStake then CENT else MIN_TX_FEE
  let nMinRelayTxFee := if tx.isCoinStake then CENT else MIN_RELAY_TX_FEE
  let nBaseFee := if mode == .GMF_RELAY then nMinRelayTxFee else nMinTxFee
  let nNewBlockSize := nBlockSize + nBytes
  let nMinFee : Int64 := (1 + Int64.ofNat (nBytes / 1000)) * nBaseFee
  let nMinFee :=
    if fAllowFree && (if nBlockSize == 1 then nBytes < 1000 else nNewBlockSize < 27000) then 0
    else nMinFee
  -- dust: one more base fee for each small output
  let nMinFee := tx.vout.foldl (fun fee txout =>
    if txout.nValue < CENT && !txout.isEmpty then fee + nBaseFee else fee) nMinFee
  if nBlockSize != 1 && MAX_BLOCK_SIZE_GEN / 2 ≤ nNewBlockSize then
    if MAX_BLOCK_SIZE_GEN ≤ nNewBlockSize then MAX_MONEY
    else
      let nMinFee := nMinFee * Int64.ofNat (MAX_BLOCK_SIZE_GEN / (MAX_BLOCK_SIZE_GEN - nNewBlockSize))
      if moneyRange nMinFee then nMinFee else MAX_MONEY
  else if moneyRange nMinFee then nMinFee else MAX_MONEY

/-- One input in the loop of `GetCoinAge`; the state is `bnCentSecond`. -/
def coinAgeInput (env : Env) (db : TxDB) (tx : CTransaction) (bnCentSecond : Int) (txin : CTxIn) :
    Except Reject Int :=
  match db.lookup txin.prevout.hash with
  | none => .ok bnCentSecond
  | some txindex =>
    match (env.readTx txindex.pos).bind fun txPrev =>
        (txPrev.vout[txin.prevout.n.toNat]?).map fun txout => (txPrev, txout) with
    | none => .ok bnCentSecond
    | some (txPrev, txout) => do
      require (txPrev.nTime ≤ tx.nTime) (.error "")
      let block ← getOr (env.readBlockHeader txindex.pos.nFile txindex.pos.nBlockPos) (.error "")
      if tx.nTime.toNat < block.getBlockTime + nStakeMinAge env.fTestNet then pure bnCentSecond
      else pure (bnCentSecond +
        (txout.nValue.toInt * ((tx.nTime - txPrev.nTime).toNat : Int)).tdiv CENT.toInt)

/-- `CTransaction::GetCoinAge`, in coin-days. -/
def CTransaction.getCoinAge (env : Env) (db : TxDB) (tx : CTransaction) : Except Reject UInt64 :=
  if tx.isCoinBase then .ok 0
  else do
    let bnCentSecond ← foldAll (coinAgeInput env db tx) 0 tx.vin
    pure (getuint64 (((bnCentSecond * CENT.toInt).tdiv COIN.toInt).tdiv nOneDay))

/-! ## Script checks -/

/-- `CScriptCheck`: a script verification, to be made now or by a worker thread. -/
structure CScriptCheck where
  scriptPubKey : CScript
  txTo : CTransaction
  nIn : Nat
  nFlags : UInt32
  nHashType : UInt32
  deriving DecidableEq

/-- The check of input `nIn` of `txTo`, which spends an output of `txFrom`. -/
def CScriptCheck.new (txFrom txTo : CTransaction) (txin : CTxIn) (nIn : Nat) (flags : UInt32) :
    CScriptCheck :=
  { scriptPubKey := ((txFrom.vout[txin.prevout.n.toNat]?).map (·.scriptPubKey)).getD [],
    txTo, nIn, nFlags := flags, nHashType := 0 }

/-- `CScriptCheck::operator()`. -/
def CScriptCheck.run (crypto : Crypto) (check : CScriptCheck) : Bool :=
  verifyScript ⟨crypto, check.txTo, check.nIn, check.nFlags, check.nHashType⟩
    (((check.txTo.vin[check.nIn]?).map (·.scriptSig)).getD []) check.scriptPubKey

/-- The evaluation a script check makes. -/
def CScriptCheck.context (crypto : Crypto) (check : CScriptCheck) : ScriptContext :=
  ⟨crypto, check.txTo, check.nIn, check.nFlags, check.nHashType⟩

/-- The checks it makes on the way, if it passes. -/
def CScriptCheck.log (crypto : Crypto) (check : CScriptCheck) : Option (List Check) :=
  verifyScriptLog (check.context crypto) (((check.txTo.vin[check.nIn]?).map (·.scriptSig)).getD [])
    check.scriptPubKey

/-! ## Connecting -/

/-- The loop over `pindex` in `ConnectInputs`: the coins at `pos` are younger than
`nCoinbaseMaturity`. -/
def isImmature (fTestNet : Bool) (pindexBlock : PIndex) (pos : CDiskTxPos) : Bool :=
  match pindexBlock with
  | [] => false
  | block :: _ =>
    (pindexBlock.takeWhile fun pindex =>
      block.nHeight - pindex.nHeight < nCoinbaseMaturity fTestNet).any fun pindex =>
        pindex.nBlockPos == pos.nBlockPos && pindex.nFile == pos.nFile

/-- The arguments of `ConnectInputs` that do not change during the call. -/
structure ConnectArgs where
  posThisTx : CDiskTxPos
  pindexBlock : PIndex
  fBlock : Bool
  fMiner : Bool
  fScriptChecks : Bool
  flags : UInt32
  /-- `pvChecks` is given: script checks are collected, not made. -/
  pvChecks : Bool

/-- The body of the first loop of `ConnectInputs`; the state is `nValueIn`. -/
def checkInput (env : Env) (args : ConnectArgs) (tx : CTransaction) (inputs : MapPrevTx)
    (nValueIn : Int64) (txin : CTxIn) : Except Reject Int64 := do
  let (txindex, txPrev) ← getOr (inputs txin.prevout.hash) (.error "")
  let txout ← getOr (txPrev.vout[txin.prevout.n.toNat]?)
    ⟨100, "ConnectInputs() : prevout.n out of range"⟩
  require (txin.prevout.n.toNat < txindex.vSpent.length)
    ⟨100, "ConnectInputs() : prevout.n out of range"⟩
  require (!((txPrev.isCoinBase || txPrev.isCoinStake) &&
      isImmature env.fTestNet args.pindexBlock txindex.pos))
    (.error (if txPrev.isCoinBase then "ConnectInputs() : tried to spend coinbase"
      else "ConnectInputs() : tried to spend coinstake"))
  require (txPrev.nTime ≤ tx.nTime)
    ⟨100, "ConnectInputs() : transaction timestamp earlier than input transaction"⟩
  require (moneyRange txout.nValue && moneyRange (nValueIn + txout.nValue))
    ⟨100, "ConnectInputs() : txin values out of range"⟩
  pure (nValueIn + txout.nValue)

/-- What the second loop of `ConnectInputs` changes; `inputs` is its copy. -/
structure SpendState where
  inputs : MapPrevTx
  mapTestPool : QueuedChanges
  vChecks : List CScriptCheck

/-- A script check that failed, without a score if only under the strict rules. -/
def scriptReject (env : Env) (txPrev tx : CTransaction) (txin : CTxIn) (nIn : Nat) (flags : UInt32) :
    Reject :=
  if hasFlag flags STRICT_FLAGS &&
      (CScriptCheck.new txPrev tx txin nIn (flags &&& ~~~STRICT_FLAGS)).run env.crypto then
    .error "ConnectInputs() : strict VerifySignature failed"
  else ⟨100, "ConnectInputs() : VerifySignature failed"⟩

/-- The body of the second loop of `ConnectInputs`. -/
def spendInput (env : Env) (args : ConnectArgs) (tx : CTransaction) (s : SpendState)
    (input : CTxIn × Nat) : Except Reject SpendState := do
  let (txin, nIn) := input
  let hash := txin.prevout.hash
  let (txindex, txPrev) ← getOr (s.inputs hash) (.error "")
  -- check for conflicts (double-spend)
  require (((txindex.vSpent[txin.prevout.n.toNat]?).map CDiskTxPos.isNull).getD false)
    (.error "ConnectInputs() : prev tx already used")
  let check := CScriptCheck.new txPrev tx txin nIn args.flags
  require (!args.fScriptChecks || args.pvChecks || check.run env.crypto)
    (scriptReject env txPrev tx txin nIn args.flags)
  let txindex := { txindex with vSpent := txindex.vSpent.set txin.prevout.n.toNat args.posThisTx }
  pure
    { inputs := s.inputs.insert hash (txindex, txPrev)
      mapTestPool :=
        if args.fBlock || args.fMiner then s.mapTestPool.insert hash txindex else s.mapTestPool
      vChecks :=
        if args.fScriptChecks && args.pvChecks then s.vChecks ++ [check] else s.vChecks }

/-- The last part of `ConnectInputs` for a coinstake, the limit of the reward. -/
def checkStakeReward (env : Env) (db : TxDB) (args : ConnectArgs) (tx : CTransaction)
    (nValueIn : Int64) : Except Reject Unit :=
  if env.getLastCheckpointTime < tx.nTime then do
    let nCoinAge ← tx.getCoinAge env db
    let nValueOut ← tx.getValueOut
    let nBits := (args.pindexBlock.head?.map (·.nBits)).getD 0
    let nCalculatedReward := getProofOfStakeReward env.fTestNet nCoinAge.toInt64 nBits tx.nTime -
      tx.getMinFee 1 false .GMF_BLOCK tx.getSerializeSize + CENT
    require (nValueOut - nValueIn ≤ nCalculatedReward)
      ⟨100, "ConnectInputs() : coinstake pays too much"⟩
  else .ok ()

/-- The last part of `ConnectInputs` for any other transaction. -/
def checkFee (tx : CTransaction) (nValueIn : Int64) : Except Reject Unit := do
  let nValueOut ← tx.getValueOut
  require (nValueOut ≤ nValueIn) ⟨100, "ConnectInputs() : value in < value out"⟩
  require (0 ≤ nValueIn - nValueOut) ⟨100, "ConnectInputs() : nTxFee < 0"⟩
  require (moneyRange (nValueIn - nValueOut)) ⟨100, "ConnectInputs() : nFees out of range"⟩

/-- The last part of `ConnectInputs`. -/
def checkAmounts (env : Env) (db : TxDB) (args : ConnectArgs) (tx : CTransaction)
    (nValueIn : Int64) : Except Reject Unit :=
  if tx.isCoinStake then checkStakeReward env db args tx nValueIn else checkFee tx nValueIn

/-- `ConnectInputs`: the new `mapTestPool` and the script checks left to others. -/
def connectInputs (env : Env) (db : TxDB) (inputs : MapPrevTx) (mapTestPool : QueuedChanges)
    (args : ConnectArgs) (tx : CTransaction) : Except Reject (QueuedChanges × List CScriptCheck) :=
  if tx.isCoinBase then .ok (mapTestPool, [])
  else do
    let nValueIn ← foldAll (checkInput env args tx inputs) 0 tx.vin
    let s ← foldAll (spendInput env args tx) ⟨inputs, mapTestPool, []⟩ tx.vin.zipIdx
    checkAmounts env db args tx nValueIn
    pure (s.mapTestPool, s.vChecks)

/-! ## Disconnecting -/

/-- The body of the loop of `DisconnectInputs`. -/
def disconnectInput (db : TxDB) (txin : CTxIn) : Except Reject TxDB := do
  let txindex ← getOr (db.lookup txin.prevout.hash)
    (.error "DisconnectInputs() : ReadTxIndex failed")
  require (txin.prevout.n.toNat < txindex.vSpent.length)
    (.error "DisconnectInputs() : prevout.n out of range")
  pure (db.insert txin.prevout.hash
    { txindex with vSpent := txindex.vSpent.set txin.prevout.n.toNat CDiskTxPos.null })

/-- The loop of `DisconnectInputs`. -/
def disconnectSpends (db : TxDB) (tx : CTransaction) : Except Reject TxDB :=
  if tx.isCoinBase then .ok db else foldAll disconnectInput db tx.vin

/-- `DisconnectInputs`. That there was nothing to erase is not an error. -/
def disconnectInputs (crypto : Crypto) (db : TxDB) (tx : CTransaction) : Except Reject TxDB := do
  let db ← disconnectSpends db tx
  pure (db.erase (crypto.txHash tx))

end NovaCoin
