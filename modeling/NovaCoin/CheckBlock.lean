import NovaCoin.Infra.Guard
import NovaCoin.Merkle
import NovaCoin.Script.Basic
import NovaCoin.Target

/-!
# CheckTransaction and CheckBlock

The checks that need no context, with the score and text each failure gives. A function that
returns `bool` in the source is a computation in `Except Reject`; so is one that throws. Sizes are
numbers, where `GetSerializeSize` is an `unsigned int`: transactions and blocks below 2³² bytes.
-/

namespace NovaCoin

open Guard

/-- A failed check: the denial-of-service score it adds and what is logged. -/
structure Reject where
  nDoS : Nat
  message : String
  deriving DecidableEq, Repr

/-- `error(..)` and exceptions: no score. -/
def Reject.error (message : String) : Reject := ⟨0, message⟩

/-- The score of a callee under the text of the caller. -/
def Reject.relabel (message : String) (r : Reject) : Reject := ⟨r.nDoS, message⟩

/-- The surroundings of the validation functions during a call: network, clock, checkpoints, block
files and memory pool. -/
structure Env where
  crypto : Crypto
  fTestNet : Bool
  getAdjustedTime : Int
  nScriptCheckThreads : Nat
  /-- `Checkpoints::GetTotalBlocksEstimate` -/
  getTotalBlocksEstimate : Int
  /-- `Checkpoints::GetLastCheckpointTime` -/
  getLastCheckpointTime : UInt32
  checkBlockSignature : CBlock → Bool
  /-- `CTransaction::ReadFromDisk` -/
  readTx : CDiskTxPos → Option CTransaction
  /-- `CBlock::ReadFromDisk` without transactions -/
  readBlockHeader : UInt32 → UInt32 → Option CBlock
  /-- `mempool.exists` and `mempool.lookup` -/
  mempool : Uint256 → Option CTransaction

def Env.txHash (env : Env) (tx : CTransaction) : Uint256 := env.crypto.txHash tx

/-- A test network without checkpoints and with nothing on disk. -/
def Env.sample : Env :=
  { crypto := Crypto.sample, fTestNet := true, getAdjustedTime := 1600000000,
    nScriptCheckThreads := 0, getTotalBlocksEstimate := 0, getLastCheckpointTime := 0,
    checkBlockSignature := fun _ => true, readTx := fun _ => none,
    readBlockHeader := fun _ _ => none, mempool := fun _ => none }

/-! ## Transactions -/

namespace CTransaction

/-- One output in the loop of `CheckTransaction`; the state is `nValueOut`. -/
def checkOutput (tx : CTransaction) (nValueOut : Int64) (txout : CTxOut) : Except Reject Int64 := do
  require (!(txout.isEmpty && !tx.isCoinBase && !tx.isCoinStake))
    ⟨100, "CTransaction::CheckTransaction() : txout empty for user transaction"⟩
  require (0 ≤ txout.nValue) ⟨100, "CTransaction::CheckTransaction() : txout.nValue is negative"⟩
  require (txout.nValue ≤ MAX_MONEY)
    ⟨100, "CTransaction::CheckTransaction() : txout.nValue too high"⟩
  require (moneyRange (nValueOut + txout.nValue))
    ⟨100, "CTransaction::CheckTransaction() : txout total out of range"⟩
  pure (nValueOut + txout.nValue)

/-- The last part of `CheckTransaction`: the script of a coinbase, the inputs of any other. -/
def checkInputs (tx : CTransaction) : Except Reject Unit :=
  if tx.isCoinBase then
    forAll (fun txin => require (2 ≤ txin.scriptSig.length && txin.scriptSig.length ≤ 100)
      ⟨100, "CTransaction::CheckTransaction() : coinbase script size is invalid"⟩) (tx.vin.take 1)
  else
    forAll (fun txin => require (!txin.prevout.isNull)
      ⟨10, "CTransaction::CheckTransaction() : prevout is null"⟩) tx.vin

/-- `CTransaction::CheckTransaction`, with the scores of its errors. -/
def checkTransaction (tx : CTransaction) : Except Reject Unit := do
  require (!tx.vin.isEmpty) ⟨10, "CTransaction::CheckTransaction() : vin empty"⟩
  require (!tx.vout.isEmpty) ⟨10, "CTransaction::CheckTransaction() : vout empty"⟩
  require (tx.getSerializeSize ≤ MAX_BLOCK_SIZE)
    ⟨100, "CTransaction::CheckTransaction() : size limits failed"⟩
  let _ ← foldAll tx.checkOutput 0 tx.vout
  -- the same outpoint twice is refused without a score
  require (decide (tx.vin.map (·.prevout)).Nodup) (.error "")
  tx.checkInputs

/-- `GetValueOut`; throws when a value or a running total is out of range. -/
def getValueOut (tx : CTransaction) : Except Reject Int64 :=
  foldAll (fun nValueOut txout => do
    require (moneyRange txout.nValue && moneyRange (nValueOut + txout.nValue))
      (.error "CTransaction::GetValueOut() : value out of range")
    pure (nValueOut + txout.nValue)) 0 tx.vout

/-- `GetLegacySigOpCount`: the script of a coinbase is never executed. -/
def getLegacySigOpCount (tx : CTransaction) : Nat :=
  (if tx.isCoinBase then 0 else (tx.vin.map fun txin => getSigOpCount txin.scriptSig false).sum) +
    (tx.vout.map fun txout => getSigOpCount txout.scriptPubKey false).sum

end CTransaction

/-! ## Blocks -/

/-- `getuint256` of a number that is not negative. -/
def getuint256 (n : Int) : Uint256 := BitVec.ofNat 256 n.toNat

def checkProofOfWork (fTestNet : Bool) (hash : Uint256) (nBits : UInt32) : Bool :=
  let bnTarget := setCompact nBits
  if bnTarget ≤ 0 || bnProofOfWorkLimit fTestNet < bnTarget then false
  else hash ≤ getuint256 bnTarget

/-- The checks of `CheckBlock` on a transaction that is neither coinbase nor coinstake. -/
def checkOrdinary (b : CBlock) (tx : CTransaction) : Except Reject Unit := do
  require (!tx.isCoinBase) ⟨100, "CheckBlock() : coinbase at wrong index"⟩
  require (!tx.isCoinStake) ⟨100, "CheckBlock() : coinstake at wrong index"⟩
  require ((tx.nTime.toNat : Int) ≤ b.getBlockTime)
    ⟨50, "CheckBlock() : block timestamp earlier than transaction timestamp"⟩
  tx.checkTransaction.mapError (.relabel "CheckBlock() : CheckTransaction failed")

/-- The part of `CheckBlock` for proof of stake: coinbase and coinstake. -/
def checkStakePart (env : Env) (b : CBlock) (coinbase coinstake : CTransaction) (fCheckSig : Bool) :
    Except Reject Unit := do
  require (b.nNonce == 0) ⟨100, "CheckBlock() : non-zero nonce in proof-of-stake block"⟩
  require (coinbase.vout.length == 1 && coinbase.vout.all CTxOut.isEmpty)
    ⟨100, "CheckBlock() : coinbase output not empty for proof-of-stake block"⟩
  require (b.getBlockTime == (coinstake.nTime.toNat : Int))
    ⟨50, "CheckBlock() : coinstake timestamp violation"⟩
  require (!fCheckSig || env.checkBlockSignature b)
    ⟨100, "CheckBlock() : bad proof-of-stake block signature"⟩
  coinstake.checkTransaction.mapError
    (.relabel "CheckBlock() : CheckTransaction failed on coinstake")

/-- The part of `CheckBlock` for proof of work. -/
def checkWorkPart (env : Env) (b : CBlock) (coinbase : CTransaction) (fCheckPOW : Bool) :
    Except Reject Unit := do
  require (!fCheckPOW || checkProofOfWork env.fTestNet (env.crypto.blockHash b) b.nBits)
    ⟨50, "CheckBlock() : proof of work failed"⟩
  require (b.getBlockTime ≤ futureDrift env.getAdjustedTime)
    (.error "CheckBlock() : block timestamp too far in the future")
  require (pastDrift coinbase.nTime.toNat ≤ b.getBlockTime)
    ⟨50, "CheckBlock() : coinbase timestamp is too late"⟩

/-- The part of `CheckBlock` that depends on the kind of the block. -/
def checkKind (env : Env) (b : CBlock) (coinbase : CTransaction) (fCheckPOW fCheckSig : Bool) :
    Except Reject Unit :=
  if b.isProofOfStake then do
    let coinstake ← getOr (b.vtx[1]?) (.error "")
    checkStakePart env b coinbase coinstake fCheckSig
  else checkWorkPart env b coinbase fCheckPOW

/-- `uniqueTx.size()`: the number of different transaction hashes. -/
def uniqueTxCount (env : Env) (b : CBlock) : Nat := (b.vtx.map env.txHash).dedup.length

theorem nodup_of_uniqueTxCount {env : Env} {b : CBlock} (h : uniqueTxCount env b = b.vtx.length) :
    (b.vtx.map env.txHash).Nodup := by
  rw [← List.length_map (f := env.txHash)] at h
  rw [← List.dedup_eq_self]
  exact (List.dedup_sublist _).eq_of_length h

/-- `CheckBlock`. The coinstake of a proof-of-stake block, at index 1, is not in the loop. -/
def checkBlock (env : Env) (b : CBlock) (fCheckPOW fCheckMerkleRoot fCheckSig : Bool) :
    Except Reject Unit := do
  require (!b.vtx.isEmpty && b.vtx.length ≤ MAX_BLOCK_SIZE && b.getSerializeSize ≤ MAX_BLOCK_SIZE)
    ⟨100, "CheckBlock() : size limits failed"⟩
  let coinbase ← getOr b.vtx.head? (.error "")
  require coinbase.isCoinBase ⟨100, "CheckBlock() : first tx is not coinbase"⟩
  coinbase.checkTransaction.mapError (.relabel "CheckBlock() : CheckTransaction failed on coinbase")
  checkKind env b coinbase fCheckPOW fCheckSig
  forAll (checkOrdinary b) (b.vtx.drop (if b.isProofOfStake then 2 else 1))
  require (uniqueTxCount env b == b.vtx.length) ⟨100, "CheckBlock() : duplicate transaction"⟩
  require ((b.vtx.map (·.getLegacySigOpCount)).sum ≤ MAX_BLOCK_SIGOPS)
    ⟨100, "CheckBlock() : out-of-bounds SigOpCount"⟩
  require (!fCheckMerkleRoot || b.hashMerkleRoot == buildMerkleTree env.crypto b)
    ⟨100, "CheckBlock() : hashMerkleRoot mismatch"⟩

/-! ## The target filter of ProcessBlock

Before it looks for the parent of a block, `ProcessBlock` compares the target of the block with
the largest one that `ComputeMaxBits` takes to be possible since the last synchronized checkpoint. -/

/-- The loop of `ComputeMaxBits`: "Maximum 200% adjustment per day". -/
@[semireducible]
def maxBitsLoop (bnTargetLimit bnResult nTime : Int) : Int :=
  if _h : 0 < nTime ∧ bnResult < bnTargetLimit then
    maxBitsLoop bnTargetLimit (bnResult * 2) (nTime - nOneDay)
  else bnResult
termination_by nTime.toNat
decreasing_by
  rw [nOneDay]
  omega

/-- `ComputeMaxBits`: "maximum nBits value could possible be required nTime after". -/
def computeMaxBits (bnTargetLimit : Int) (nBase : UInt32) (nTime : Int) : UInt32 :=
  let bnResult := maxBitsLoop bnTargetLimit (setCompact nBase * 2) nTime
  getCompact (if bnTargetLimit < bnResult then bnTargetLimit else bnResult)

def computeMinWork (fTestNet : Bool) (nBase : UInt32) (nTime : Int) : UInt32 :=
  computeMaxBits (bnProofOfWorkLimit fTestNet) nBase nTime

def computeMinStake (fTestNet : Bool) (nBase : UInt32) (nTime : Int) (nBlockTime : UInt32) : UInt32 :=
  computeMaxBits (getProofOfStakeLimit fTestNet 0 nBlockTime) nBase nTime

/-- `bnRequired` of `ProcessBlock`, for a checkpoint that is there. -/
def bnRequired (fTestNet : Bool) (pcheckpoint : CBlockIndex) (pprev : PIndex) (b : CBlock) : Int :=
  let deltaTime := b.getBlockTime - pcheckpoint.getBlockTime
  let nBase := ((getLastBlockIndex b.isProofOfStake (pcheckpoint :: pprev)).head?.getD pcheckpoint).nBits
  setCompact (if b.isProofOfStake then computeMinStake fTestNet nBase deltaTime b.nTime
    else computeMinWork fTestNet nBase deltaTime)

/-- The checks of `ProcessBlock` "to prevent fill up memory by spamming with bogus blocks".
`fWanted` is `WantedByPendingSyncCheckpoint`. -/
def checkTarget (fTestNet : Bool) (pcheckpoint : PIndex) (hashBestChain : Uint256) (fWanted : Bool)
    (b : CBlock) : Except Reject Unit :=
  match pcheckpoint with
  | [] => .ok ()
  | pcheckpoint :: pprev =>
    if b.hashPrevBlock != hashBestChain && !fWanted then
      require (setCompact b.nBits ≤ bnRequired fTestNet pcheckpoint pprev b)
        ⟨100, "ProcessBlock() : block with too little " ++
          if b.isProofOfStake then "proof-of-stake" else "proof-of-work"⟩
    else .ok ()

/-! ## What the filter compares with -/

/-- The days begun in a time. -/
def daysBegun (nTime : Int) : Nat := ((nTime + nOneDay - 1) / nOneDay).toNat

/-- The loop doubles once per day begun; it stops earlier only above the limit. -/
theorem min_maxBitsLoop (bnTargetLimit bnResult nTime : Int) (h : 0 ≤ bnResult) :
    min (maxBitsLoop bnTargetLimit bnResult nTime) bnTargetLimit =
      min (bnResult * 2 ^ daysBegun nTime) bnTargetLimit := by
  fun_induction maxBitsLoop bnTargetLimit bnResult nTime with
  | case1 bnResult nTime hloop ih =>
    have hdays : daysBegun nTime = daysBegun (nTime - nOneDay) + 1 := by
      simp only [daysBegun, nOneDay]
      omega
    rw [ih (by omega), hdays]
    ring_nf
  | case2 bnResult nTime hstop =>
    rcases not_and_or.mp hstop with hle | hge
    · have hdays : daysBegun nTime = 0 := by
        simp only [daysBegun, nOneDay]
        omega
      rw [hdays, pow_zero, mul_one]
    · have hpow : bnResult * 1 ≤ bnResult * 2 ^ daysBegun nTime :=
        Int.mul_le_mul_of_nonneg_left (one_le_pow₀ (by omega)) h
      rw [min_eq_right (by omega), min_eq_right (by omega)]

theorem computeMaxBits_eq {bnTargetLimit : Int} {nBase : UInt32} (hbase : 0 ≤ setCompact nBase)
    (nTime : Int) : computeMaxBits bnTargetLimit nBase nTime =
      getCompact (min (setCompact nBase * 2 ^ (1 + daysBegun nTime)) bnTargetLimit) := by
  have hmin := min_maxBitsLoop bnTargetLimit (setCompact nBase * 2) nTime (by omega)
  rw [mul_assoc, ← pow_succ', Nat.add_comm] at hmin
  refine congrArg getCompact ?_
  split_ifs <;> omega

end NovaCoin
