import NovaCoin.Infra.Flagged
import NovaCoin.Miner
import NovaCoin.Wallet

/-!
# Payments

`CWallet::CreateTransaction` (`wallet.cpp`). The fee depends on the size of the transaction, which is
known when it is signed; while it is too small, the transaction is made again with the fee that was
asked for.

The coins that are chosen, the place of the change, the signatures and the priority of a round are
arbitrary. The wallet is locked during the call, so that all rounds see the same coins.
-/

namespace NovaCoin

/-! ## Coin selection

`CWallet::SelectCoinsMinConf` and `ApproximateBestSubset`: a single coin if one has exactly the
value, all the smaller ones if they add up to it, or else the better of the smallest larger coin and
a subset of the smaller ones that is found at random.

The random choices are in `CoinRandom`. The coins are shuffled first, so any order of coins of the same
value may come out of the sort. A set of coins is a list without duplicates. -/

open Guard

deriving instance DecidableEq for CMerkleTx

deriving instance DecidableEq for CWalletTx

/-- `std::pair<const CWalletTx*, unsigned int>`: an output of a transaction. -/
structure CoinRef where
  tx : CWalletTx
  i : Nat
  valid : i < tx.tx.vout.length
  deriving DecidableEq

def CoinRef.nValue (coin : CoinRef) : Int64 := (coin.tx.tx.vout.get ⟨coin.i, coin.valid⟩).nValue

structure COutput extends CoinRef where
  nDepth : Int
  fSpendable : Bool
  deriving DecidableEq

/-- What `SelectCoinsMinConf` does at random. -/
structure CoinRandom where
  shuffle : List COutput → List COutput
  perm : ∀ vCoins, (shuffle vCoins).Perm vCoins
  /-- `rand() % 2`, by the call of `ApproximateBestSubset`, the repetition and the coin -/
  bit : Bool → Nat → Nat → Bool

/-! ## The best subset -/

/-- The variables of `ApproximateBestSubset`. -/
structure SubsetSearch where
  vfIncluded : List Bool
  nTotal : Int64
  fReachedTarget : Bool
  vfBest : List Bool
  nBest : Int64

namespace SubsetSearch

variable (nTargetValue : Int64)

/-- A coin is included; it is taken out again when the target is reached. -/
def includeCoin (s : SubsetSearch) (nValue : Int64) (i : Nat) : SubsetSearch :=
  if nTargetValue ≤ s.nTotal + nValue then
    { vfIncluded := (s.vfIncluded.set i true).set i false
      nTotal := s.nTotal + nValue - nValue
      fReachedTarget := true
      vfBest := if s.nTotal + nValue < s.nBest then s.vfIncluded.set i true else s.vfBest
      nBest := if s.nTotal + nValue < s.nBest then s.nTotal + nValue else s.nBest }
  else { s with vfIncluded := s.vfIncluded.set i true, nTotal := s.nTotal + nValue }

/-- The inner loop from coin `i` on; the condition depends on the pass. -/
def passFrom (chosen : SubsetSearch → Nat → Bool) (s : SubsetSearch) (i : Nat) :
    List CoinRef → SubsetSearch
  | [] => s
  | coin :: vValue =>
    passFrom chosen (if chosen s i then s.includeCoin nTargetValue coin.nValue i else s) (i + 1) vValue

/-- Both passes; the second is left out if the first has reached the target. -/
def passes (bit : Nat → Bool) (vValue : List CoinRef) (s : SubsetSearch) : SubsetSearch :=
  let s := passFrom nTargetValue (fun _ i => bit i) s 0 vValue
  if s.fReachedTarget then s
  else passFrom nTargetValue (fun s i => !s.vfIncluded.getD i false) s 0 vValue

/-- The loop over `nRep`, with so many iterations left. -/
def repeatPasses (bit : Nat → Nat → Bool) (vValue : List CoinRef) :
    Nat → Nat → SubsetSearch → SubsetSearch
  | 0, _, s => s
  | iterations + 1, nRep, s =>
    if s.nBest = nTargetValue then s
    else repeatPasses bit vValue iterations (nRep + 1)
      (passes nTargetValue (bit nRep) vValue
        { s with
          vfIncluded := List.replicate vValue.length false
          nTotal := 0
          fReachedTarget := false })

end SubsetSearch

/-- `ApproximateBestSubset`: `vfBest` and `nBest`. -/
def approximateBestSubset (bit : Nat → Nat → Bool) (vValue : List CoinRef)
    (nTotalLower nTargetValue : Int64) (iterations : Nat) : List Bool × Int64 :=
  let s := SubsetSearch.repeatPasses nTargetValue bit vValue iterations 0
    ⟨[], 0, false, List.replicate vValue.length true, nTotalLower⟩
  (s.vfBest, s.nBest)

/-! ## Selection -/

/-- The coins so far: the smallest of the larger ones, if there is one, and those below the target
and a cent. -/
structure CoinScan where
  nLowestLarger : Int64
  coinLowestLarger : Option CoinRef
  vValue : List CoinRef
  nTotalLower : Int64

/-- One coin in the loop of `SelectCoinsMinConf`; a coin of exactly the value ends it. -/
def scanCoin (nTargetValue : Int64) (s : CoinScan) (coin : CoinRef) : Except CoinRef CoinScan :=
  if coin.nValue = nTargetValue then .error coin
  else if coin.nValue < nTargetValue + CENT then
    .ok { s with vValue := s.vValue ++ [coin], nTotalLower := s.nTotalLower + coin.nValue }
  else if coin.nValue < s.nLowestLarger then
    .ok { s with nLowestLarger := coin.nValue, coinLowestLarger := some coin }
  else .ok s

/-- The coins inserted into `setCoinsRet` and added to `nValueRet`. -/
def takeCoins (coins : List CoinRef) : List CoinRef × Int64 :=
  coins.foldl (fun r coin => (r.1.insert coin, r.2 + coin.nValue)) ([], 0)

/-- The two searches for a subset. -/
def bestSubset (random : CoinRandom) (nTargetValue nTotalLower : Int64) (vValue : List CoinRef) :
    List Bool × Int64 :=
  let best := approximateBestSubset (random.bit false) vValue nTotalLower nTargetValue 1000
  if best.2 ≠ nTargetValue ∧ nTargetValue + CENT ≤ nTotalLower then
    approximateBestSubset (random.bit true) vValue nTotalLower (nTargetValue + CENT) 1000
  else best

/-- `SelectCoinsMinConf` after the loop. -/
def selectFromScan (random : CoinRandom) (nTargetValue : Int64) (s : CoinScan) :
    Option (List CoinRef × Int64) :=
  if s.nTotalLower = nTargetValue then some (takeCoins s.vValue)
  else if s.nTotalLower < nTargetValue then s.coinLowestLarger.map fun coin => takeCoins [coin]
  else
    let vValue := (s.vValue.mergeSort fun a b => decide (a.nValue ≤ b.nValue)).reverse
    let best := bestSubset random nTargetValue s.nTotalLower vValue
    match s.coinLowestLarger with
    | some coin =>
      if (best.2 ≠ nTargetValue ∧ best.2 < nTargetValue + CENT) ∨ s.nLowestLarger ≤ best.2 then
        some (takeCoins [coin])
      else some (takeCoins (Flagged.pick vValue best.1))
    | none => some (takeCoins (Flagged.pick vValue best.1))

/-- The loop over the coins and what comes after it. -/
def selectFrom (random : CoinRandom) (nTargetValue : Int64) (coins : List CoinRef) :
    Option (List CoinRef × Int64) :=
  match foldAll (scanCoin nTargetValue) ⟨MAX_MONEY, none, [], 0⟩ coins with
  | .error coin => some (takeCoins [coin])
  | .ok s => selectFromScan random nTargetValue s

section

variable (isFromMe : CWalletTx → Bool) (nSpendTime : UInt32) (nConfMine nConfTheirs : Int)

/-- The conditions on an output. -/
def COutput.isEligible (output : COutput) : Bool :=
  output.fSpendable &&
    !decide (output.nDepth < if isFromMe output.tx then nConfMine else nConfTheirs) &&
    !decide (nSpendTime < output.tx.tx.nTime)

/-- The outputs that are not passed over. -/
def eligibleCoins (vCoins : List COutput) : List CoinRef :=
  (vCoins.filter (COutput.isEligible isFromMe nSpendTime nConfMine nConfTheirs)).map
    COutput.toCoinRef

/-- `SelectCoinsMinConf`: `setCoinsRet` and `nValueRet` if it returns `true`. -/
def selectCoinsMinConf (random : CoinRandom) (nTargetValue : Int64) (vCoins : List COutput) :
    Option (List CoinRef × Int64) :=
  selectFrom random nTargetValue
    (eligibleCoins isFromMe nSpendTime nConfMine nConfTheirs (random.shuffle vCoins))

end

/-! ## The coins of the wallet

`AvailableCoins` lists the outputs that the wallet may spend. `SelectCoins` takes some of them for a
payment.

What `GetDepthInMainChain` finds out about a branch is kept in the transaction, but does not change
what it returns; a coin is compared by the transaction that is in the map. -/

/-- What the wallet reads: its transactions and settings, the block index, the clock and the pool.
-/
structure WalletView where
  env : WalletEnv
  mapWallet : MapWallet
  m : MainChain
  nBestHeight : Int
  nAdjustedTime : Int
  fConfChange : Bool
  /-- `mempool.exists` -/
  inMempool : Uint256 → Bool
  /-- `IsFromMe(MINE_ALL)`, by the debit that was kept -/
  isFromMe : CWalletTx → Bool

namespace WalletView

variable (view : WalletView)

def isFinal (wtx : CWalletTx) : Bool := wtx.tx.isFinal view.nBestHeight view.nAdjustedTime

def getDepthInMainChain (wtx : CWalletTx) : Int :=
  (wtx.toCMerkleTx.getDepthInMainChain view.env.crypto view.m).2.2

def getBlocksToMaturity (wtx : CWalletTx) : Int := (wtx.getBlocksToMaturity view.env view.m).2

/-- The output that an input spends is of the wallet. An index out of range is not checked, and
counts as not. -/
def spendsOwn (txin : CTxIn) : Bool :=
  match view.mapWallet.prevOut txin.prevout with
  | none => false
  | some parentOut => view.env.isMine parentOut = .MINE_SPENDABLE

def isTrusted (wtx : CWalletTx) : Bool :=
  if !view.isFinal wtx then false
  else if 1 ≤ view.getDepthInMainChain wtx then true
  else if view.getDepthInMainChain wtx < 0 then false
  else if !view.fConfChange || !view.isFromMe wtx then false
  -- unconfirmed transactions from us have to be in the memory pool
  else if !view.inMempool (view.env.crypto.txHash wtx.tx) then false
  else wtx.tx.vin.all view.spendsOwn

/-- The transactions in the order of the map. -/
def entries : List (Uint256 × CWalletTx) :=
  (view.mapWallet.entries.map fun e => (e.1, e.2)).insertionSort fun a b => a.1 ≤ b.1

/-- The outputs of a transaction that are not spent, belong to the wallet and pass a test. -/
def unspentOutputs (wtx : CWalletTx) (fTake : Nat → Int64 → Bool) : List COutput :=
  (List.finRange wtx.tx.vout.length).filterMap fun i =>
    let txout := wtx.tx.vout.get i
    if !wtx.isSpent i && view.env.owns txout && fTake i txout.nValue then
      some
        { tx := wtx
          i := i
          valid := i.isLt
          nDepth := view.getDepthInMainChain wtx
          fSpendable := view.env.isMine txout = .MINE_SPENDABLE }
    else none

end WalletView

structure CCoinControl where
  /-- the script of the address for the change, if one was given -/
  destChange : Option CScript
  setSelected : List COutPoint

def CCoinControl.hasSelected (coinControl : CCoinControl) : Bool := !coinControl.setSelected.isEmpty

def CCoinControl.isSelected (coinControl : CCoinControl) (hash : Uint256) (n : Nat) : Bool :=
  coinControl.setSelected.contains ⟨hash, UInt32.ofNat n⟩

namespace WalletView

variable (view : WalletView)

/-- The transaction is passed over. -/
def isUnavailable (fOnlyConfirmed : Bool) (wtx : CWalletTx) : Bool :=
  !view.isFinal wtx || fOnlyConfirmed && !view.isTrusted wtx ||
    wtx.tx.isCoinBase && decide (0 < view.getBlocksToMaturity wtx) ||
    wtx.tx.isCoinStake && decide (0 < view.getBlocksToMaturity wtx)

def availableCoins (fOnlyConfirmed : Bool) (coinControl : Option CCoinControl) : List COutput :=
  view.entries.flatMap fun (hash, wtx) =>
    if view.isUnavailable fOnlyConfirmed wtx then []
    else view.unspentOutputs wtx fun i nValue =>
      decide (view.env.nMinimumInputValue ≤ nValue) &&
        coinControl.all fun c => !c.hasSelected || c.isSelected hash i

/-- `SelectCoins`, with the random choices of each call of `SelectCoinsMinConf`. -/
def selectCoins (random : Fin 3 → CoinRandom) (nTargetValue : Int64) (nSpendTime : UInt32)
    (coinControl : Option CCoinControl) : Option (List CoinRef × Int64) :=
  let vCoins := view.availableCoins true coinControl
  if coinControl.any CCoinControl.hasSelected then
    -- all selected outputs
    let taken := takeCoins ((vCoins.filter (·.fSpendable)).map COutput.toCoinRef)
    if nTargetValue ≤ taken.2 then some taken else none
  else
    (selectCoinsMinConf view.isFromMe nSpendTime 1 6 (random 0) nTargetValue vCoins).or
      ((selectCoinsMinConf view.isFromMe nSpendTime 1 1 (random 1) nTargetValue vCoins).or
        (selectCoinsMinConf view.isFromMe nSpendTime 0 1 (random 2) nTargetValue vCoins))

end WalletView

/-- What a round of the loop does not decide itself. -/
structure PayRound where
  random : Fin 3 → CoinRandom
  /-- the order of `setCoins`, which is by address -/
  order : List CoinRef → List CoinRef
  order_perm : ∀ setCoins, (order setCoins).Perm setCoins
  /-- `reservekey.GetReservedKey()`, if it returns -/
  reservedKey : Option CKeyID
  getRandInt : Nat → Nat
  getRandInt_lt : ∀ nMax, 0 < nMax → getRandInt nMax < nMax
  /-- `SignSignature(*this, txFrom, txTo, nIn)`: the script of the input -/
  signSignature : CTransaction → CTransaction → Nat → Option CScript
  /-- `AllowFree(dPriority)` -/
  fAllowFree : Bool

/-- The inputs are signed one after the other. -/
def signInputs (signSignature : CTransaction → CTransaction → Nat → Option CScript)
    (vTxFrom : List CTransaction) (tx : CTransaction) : Option CTransaction :=
  vTxFrom.zipIdx.foldlM (fun tx p => do
    let scriptSig ← signSignature p.1 tx p.2
    some { tx with vin := tx.vin.modify p.2 fun txin => { txin with scriptSig } }) tx

/-- `CTxIn(coin.first->GetHash(), coin.second)`. -/
def CoinRef.toTxIn (crypto : Crypto) (coin : CoinRef) : CTxIn :=
  ⟨⟨crypto.txHash coin.tx.tx, UInt32.ofNat coin.i⟩, [], 0xffffffff⟩

/-- The arguments of `CreateTransaction`, and what it finds. -/
structure Payment where
  view : WalletView
  vecSend : List (CScript × Int64)
  /-- `wtxNew` before the call -/
  txNew : CTransaction
  coinControl : Option CCoinControl
  nTransactionFee : Int64
  round : Nat → PayRound

/-- A transaction, the coins it spends and `nFeeRet`. -/
structure Paid where
  tx : CTransaction
  setCoins : List CoinRef
  nFeeRet : Int64

namespace Payment

/-- The loop over the amounts. -/
def sumValue : List (CScript × Int64) → Int64 → Option Int64
  | [], nValue => some nValue
  | s :: vecSend, nValue => if nValue < 0 then none else sumValue vecSend (nValue + s.2)

/-- `vecSend.empty() || nValue < 0`. -/
def getValue (p : Payment) : Option Int64 := do
  let nValue ← sumValue p.vecSend 0
  if p.vecSend.isEmpty || decide (nValue < 0) then none else some nValue

/-- The outputs to the payees. -/
def payees (p : Payment) : List CTxOut := p.vecSend.map fun s => ⟨s.2, s.1⟩

/-- The script for the change. -/
def scriptChange (p : Payment) (k : Nat) : Option CScript :=
  match p.coinControl.bind CCoinControl.destChange with
  | some script => some script
  | none => (p.round k).reservedKey.map setDestination

/-- The outputs, with the change at a random position. -/
def outputs (p : Payment) (k : Nat) (nChange : Int64) : Option (List CTxOut) :=
  if 0 < nChange then do
    let script ← p.scriptChange k
    some (p.payees.insertIdx ((p.round k).getRandInt p.payees.length) ⟨nChange, script⟩)
  else some p.payees

/-- A signed transaction that pays this fee. -/
def makeTx (p : Payment) (nValue : Int64) (k : Nat) (nFeeRet : Int64) :
    Option (CTransaction × List CoinRef) := do
  let (coins, nValueIn) ← p.view.selectCoins (p.round k).random (nValue + nFeeRet) p.txNew.nTime
    p.coinControl
  let vout ← p.outputs k (nValueIn - nValue - nFeeRet)
  let setCoins := (p.round k).order coins
  let tx ← signInputs (p.round k).signSignature (setCoins.map (·.tx.tx))
    { p.txNew with vin := setCoins.map (CoinRef.toTxIn p.view.env.crypto), vout }
  -- limit size
  if MAX_BLOCK_SIZE_GEN / 5 ≤ tx.getSerializeSize then none else some (tx, setCoins)

/-- The fee that a transaction has to include. -/
def feeNeeded (p : Payment) (k : Nat) (tx : CTransaction) : Int64 :=
  let nBytes := tx.getSerializeSize
  max (p.nTransactionFee * (1 + Int64.ofNat (nBytes / 1000)))
    (tx.getMinFee 1 (p.round k).fAllowFree .GMF_SEND nBytes)

theorem feeLeft_lt {nFeeRet nFee : Int64} (h : nFeeRet < nFee) :
    (2 ^ 63 - nFee.toInt).toNat < (2 ^ 63 - nFeeRet.toInt).toNat := by
  have hlt := Int64.lt_iff_toInt_lt.mp h
  have hmax := Int64.toInt_lt nFee
  omega

/-- The loop, from the round and the fee it has come to. The fee only grows. -/
def payLoop (p : Payment) (nValue : Int64) (k : Nat) (nFeeRet : Int64) : Option Paid :=
  match p.makeTx nValue k nFeeRet with
  | none => none
  | some (tx, setCoins) =>
    if h : nFeeRet < p.feeNeeded k tx then p.payLoop nValue (k + 1) (p.feeNeeded k tx)
    else some ⟨tx, setCoins, nFeeRet⟩
termination_by (2 ^ 63 - nFeeRet.toInt).toNat
decreasing_by exact feeLeft_lt h

/-- `CreateTransaction`, if it returns `true`. -/
def createTransaction (p : Payment) : Option Paid := do
  let nValue ← p.getValue
  p.payLoop nValue 0 p.nTransactionFee

end Payment

end NovaCoin
