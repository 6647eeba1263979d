import NovaCoin.Infra.AssocMap
import NovaCoin.Inputs
import NovaCoin.StakeModifier

/-!
# The transactions of the wallet

`CWalletTx`, and how a transaction comes into `mapWallet` (`wallet.h`, `wallet.cpp`):
`AddToWalletIfInvolvingMe`, `AddToWallet`, and `WalletUpdateSpent`, which keeps the flags of the
outputs that are spent. `GetAvailableCredit` adds up the outputs without the flag, and keeps the
result until a flag changes.

The key store does not change, and writes to the wallet file succeed. Times, the order of the
transactions, the default key, messages and notifications are left out.
-/

namespace NovaCoin

/-! ## Transactions with a branch

`CMerkleTx`: a transaction with the block it is in and the branch that proves it. -/

structure CMerkleTx where
  tx : CTransaction
  hashBlock : Uint256
  vMerkleBranch : List Uint256
  nIndex : Int
  /-- in memory only, and `mutable` -/
  fMerkleVerified : Bool

/-- `CMerkleTx(txIn)`. -/
def CMerkleTx.new (tx : CTransaction) : CMerkleTx := ⟨tx, 0, [], -1, false⟩

/-- The block index and the best chain. -/
structure MainChain where
  mapBlockIndex : Uint256 → Option PFullIndex
  pnext : Uint256 → Option Uint256
  pindexBest : PFullIndex

namespace MainChain

def isInMainChain (m : MainChain) (pindex : PFullIndex) : Bool :=
  (m.pnext (getBlockHash pindex.pindex)).isSome || pindex == m.pindexBest

/-- The record of a block of the main chain. -/
def find (m : MainChain) (hashBlock : Uint256) : Option PFullIndex :=
  (m.mapBlockIndex hashBlock).filter m.isInMainChain

/-- How deep a block is in the best chain; 1 for the best block. -/
def depth (m : MainChain) (pindex : PFullIndex) : Int :=
  height m.pindexBest.pindex - height pindex.pindex + 1

end MainChain

/-- The node is not a client: `fClient` is initialized so and never set. -/
def fClient : Bool := false

/-- The block of `SetMerkleBranch`: the caller's, or that of the transaction index. -/
def blockOfTx (C : Crypto) (db : TxDB) (readBlock : UInt32 → UInt32 → Option CBlock)
    (pblock : Option (TreeBlock C)) (tx : CTransaction) : Option (TreeBlock C) :=
  pblock.or do
    let txindex ← db.lookup (C.txHash tx)
    let blockTmp ← readBlock txindex.pos.nFile txindex.pos.nBlockPos
    pure (.ofBlock C blockTmp)

/-- `SetMerkleBranch`: the transaction and the depth that is returned. -/
def CMerkleTx.setMerkleBranch (C : Crypto) (m : MainChain) (db : TxDB)
    (readBlock : UInt32 → UInt32 → Option CBlock) (wtx : CMerkleTx) (pblock : Option (TreeBlock C)) :
    CMerkleTx × Int :=
  let returnDepth (wtx : CMerkleTx) : CMerkleTx × Int :=
    (wtx, ((m.find wtx.hashBlock).map m.depth).getD 0)
  if fClient then
    if wtx.hashBlock = 0 then (wtx, 0) else returnDepth wtx
  else match blockOfTx C db readBlock pblock wtx.tx with
    | none => (wtx, 0)
    | some p =>
      let wtx := { wtx with hashBlock := C.blockHash p.block }
      -- locate the transaction
      let nIndex := p.block.vtx.findIdx (· == wtx.tx)
      if nIndex = p.block.vtx.length then ({ wtx with vMerkleBranch := [], nIndex := -1 }, 0)
      else returnDepth { wtx with vMerkleBranch := getMerkleBranch p nIndex, nIndex := nIndex }

/-- `GetDepthInMainChain`: the transaction, `pindexRet` and the depth. -/
def CMerkleTx.getDepthInMainChain (C : Crypto) (m : MainChain) (wtx : CMerkleTx) :
    CMerkleTx × Option PFullIndex × Int :=
  if wtx.hashBlock = 0 ∨ wtx.nIndex = -1 then (wtx, none, 0)
  else match m.find wtx.hashBlock with
    | none => (wtx, none, 0)
    | some pindex =>
      -- make sure the branch connects to this block
      if wtx.fMerkleVerified then (wtx, some pindex, m.depth pindex)
      else if some (checkMerkleBranch C (C.txHash wtx.tx) wtx.vMerkleBranch wtx.nIndex) ≠
          pindex.head?.map (·.hashMerkleRoot) then (wtx, none, 0)
      else ({ wtx with fMerkleVerified := true }, some pindex, m.depth pindex)

/-! ## What is mine -/

inductive IsMineType
  | MINE_NO | MINE_WATCH_ONLY | MINE_SPENDABLE
  deriving DecidableEq

/-- `isminefilter`: a bit for each type. -/
structure IsMineFilter where
  watchOnly : Bool
  spendable : Bool

def MINE_SPENDABLE : IsMineFilter := ⟨false, true⟩
def MINE_ALL : IsMineFilter := ⟨true, true⟩

/-- `mine & filter`. -/
def IsMineType.passes (mine : IsMineType) (filter : IsMineFilter) : Bool :=
  match mine with
  | .MINE_NO => false
  | .MINE_WATCH_ONLY => filter.watchOnly
  | .MINE_SPENDABLE => filter.spendable

/-- The key store and the settings. -/
structure WalletEnv where
  crypto : Crypto
  fTestNet : Bool
  /-- `IsMine(keystore, scriptPubKey)` -/
  isMineScript : CScript → IsMineType
  nMinimumInputValue : Int64

def WalletEnv.isMine (env : WalletEnv) (txout : CTxOut) : IsMineType :=
  env.isMineScript txout.scriptPubKey

/-- The output belongs to the wallet. -/
def WalletEnv.owns (env : WalletEnv) (txout : CTxOut) : Bool := env.isMine txout ≠ .MINE_NO

/-- `CWallet::IsMine(tx)`. -/
def WalletEnv.isMineTx (env : WalletEnv) (tx : CTransaction) : Bool :=
  tx.vout.any fun txout => env.owns txout && decide (env.nMinimumInputValue ≤ txout.nValue)

/-- `CWallet::GetCredit(txout, filter)`, which throws if the value is out of range. -/
def WalletEnv.getCredit (env : WalletEnv) (txout : CTxOut) (filter : IsMineFilter) : Option Int64 :=
  if moneyRange txout.nValue then
    some (if (env.isMine txout).passes filter then txout.nValue else 0)
  else none

/-! ## Transactions -/

structure CWalletTx extends CMerkleTx where
  fFromMe : Bool
  vfSpent : List Bool
  /-- `none` if `fAvailableCreditCached` is not set -/
  nAvailableCreditCached : Option Int64
  /-- `none` if `fAvailableWatchCreditCached` is not set -/
  nAvailableWatchCreditCached : Option Int64

namespace CWalletTx

/-- `CWalletTx(pwallet, tx)`. -/
def new (tx : CTransaction) : CWalletTx := ⟨.new tx, false, [], none, none⟩

/-- What `MarkDirty` does to the totals of the outputs that are not spent. -/
def markDirty (wtx : CWalletTx) : CWalletTx :=
  { wtx with nAvailableCreditCached := none, nAvailableWatchCreditCached := none }

/-- `IsSpent`, for an output that is there. -/
def isSpent (wtx : CWalletTx) (nOut : Nat) : Bool := wtx.vfSpent.getD nOut false

/-- `vfSpent.resize(vout.size())`. -/
def resizeSpent (wtx : CWalletTx) : CWalletTx :=
  { wtx with vfSpent := wtx.vfSpent.take wtx.tx.vout.length ++
      List.replicate (wtx.tx.vout.length - wtx.vfSpent.length) false }

/-- A flag, and the totals are to be computed again if it changes. -/
def setSpent (wtx : CWalletTx) (nOut : Nat) (fSpent : Bool) : CWalletTx :=
  if wtx.isSpent nOut = fSpent then wtx
  else
    { wtx with
      vfSpent := wtx.vfSpent.set nOut fSpent
      nAvailableCreditCached := none
      nAvailableWatchCreditCached := none }

/-- `MarkSpent`, for an output that is there. -/
def markSpent (wtx : CWalletTx) (nOut : Nat) : CWalletTx := wtx.resizeSpent.setSpent nOut true

/-- `MarkUnspent`, for an output that is there. -/
def markUnspent (wtx : CWalletTx) (nOut : Nat) : CWalletTx := wtx.resizeSpent.setSpent nOut false

/-- One position in the loop of `UpdateSpent`. -/
def updateSpentAt (wtx : CWalletTx) (fNewSpent : Bool) (i : Nat) : CWalletTx :=
  if i < wtx.vfSpent.length ∧ fNewSpent = true then wtx.setSpent i true else wtx

def updateSpent (wtx : CWalletTx) (vfNewSpent : List Bool) : CWalletTx :=
  vfNewSpent.zipIdx.foldl (fun wtx p => wtx.updateSpentAt p.1 p.2) wtx

/-- The merge in `AddToWallet`. -/
def merge (wtx wtxIn : CWalletTx) : CWalletTx :=
  let wtx := if wtxIn.hashBlock ≠ 0 then { wtx with hashBlock := wtxIn.hashBlock } else wtx
  let wtx :=
    if wtxIn.nIndex ≠ -1 then
      { wtx with vMerkleBranch := wtxIn.vMerkleBranch, nIndex := wtxIn.nIndex }
    else wtx
  let wtx := if wtxIn.fFromMe then { wtx with fFromMe := wtxIn.fFromMe } else wtx
  wtx.updateSpent wtxIn.vfSpent

/-- `GetBlocksToMaturity`, and the transaction with its branch checked. -/
def getBlocksToMaturity (env : WalletEnv) (m : MainChain) (wtx : CWalletTx) : CWalletTx × Int :=
  if !(wtx.tx.isCoinBase || wtx.tx.isCoinStake) then (wtx, 0)
  else
    let (merkleTx, _, nDepth) := wtx.toCMerkleTx.getDepthInMainChain env.crypto m
    ({ wtx with toCMerkleTx := merkleTx }, max 0 (nCoinbaseMaturity env.fTestNet + 20 - nDepth))

/-- The loop over the outputs that are not spent. -/
def addCredits (env : WalletEnv) (wtx : CWalletTx) (filter : IsMineFilter) : Option Int64 :=
  wtx.tx.vout.zipIdx.foldlM (fun nCredit p =>
    if wtx.isSpent p.2 then some nCredit
    else do
      let credit ← env.getCredit p.1 filter
      if moneyRange (nCredit + credit) then some (nCredit + credit) else none) 0

/-- `GetAvailableCredit`, which throws if a value is out of range, and the transaction with the total
kept. -/
def getAvailableCredit (env : WalletEnv) (m : MainChain) (wtx : CWalletTx) (fUseCache : Bool) :
    Option (CWalletTx × Int64) :=
  let (wtx, nBlocksToMaturity) := wtx.getBlocksToMaturity env m
  -- must wait until coinbase is safely deep enough in the chain before valuing it
  if 0 < nBlocksToMaturity then some (wtx, 0)
  else match (if fUseCache then wtx.nAvailableCreditCached else none) with
    | some nCredit => some (wtx, nCredit)
    | none => do
      let nCredit ← wtx.addCredits env MINE_SPENDABLE
      some ({ wtx with nAvailableCreditCached := some nCredit }, nCredit)

end CWalletTx

/-! ## The map -/

abbrev MapWallet := AList fun _ : Uint256 => CWalletTx

namespace MapWallet

variable (env : WalletEnv)

/-- The output that an input spends, if it is of a transaction in the wallet. -/
def prevOut (mapWallet : MapWallet) (prevout : COutPoint) : Option CTxOut := do
  let wtx ← mapWallet.lookup prevout.hash
  wtx.tx.vout[prevout.n.toNat]?

/-- `CWallet::GetDebit(txin, filter)`. -/
def getDebitIn (mapWallet : MapWallet) (txin : CTxIn) (filter : IsMineFilter) : Int64 :=
  match mapWallet.prevOut txin.prevout with
  | some txout => if (env.isMine txout).passes filter then txout.nValue else 0
  | none => 0

/-- `CWallet::GetDebit(tx, filter)`, which throws if the total is out of range. -/
def getDebit (mapWallet : MapWallet) (tx : CTransaction) (filter : IsMineFilter) : Option Int64 :=
  tx.vin.foldlM (fun nDebit txin =>
    if moneyRange (nDebit + mapWallet.getDebitIn env txin filter) then
      some (nDebit + mapWallet.getDebitIn env txin filter)
    else none) 0

def isFromMe (mapWallet : MapWallet) (tx : CTransaction) : Option Bool :=
  (mapWallet.getDebit env tx MINE_ALL).map fun nDebit => decide (0 < nDebit)

/-- One input in the loop of `WalletUpdateSpent`. -/
def updateSpentIn (mapWallet : MapWallet) (txin : CTxIn) : MapWallet :=
  match mapWallet.lookup txin.prevout.hash with
  | none => mapWallet
  | some wtx => match wtx.tx.vout[txin.prevout.n.toNat]? with
    | none => mapWallet
    | some txout =>
      if !wtx.isSpent txin.prevout.n.toNat && env.owns txout then
        mapWallet.insert txin.prevout.hash (wtx.markSpent txin.prevout.n.toNat)
      else mapWallet

/-- The loop over the outputs of a transaction that is in a block. -/
def markOwnUnspent (wtx : CWalletTx) (vout : List CTxOut) : CWalletTx :=
  vout.zipIdx.foldl (fun wtx p => if env.owns p.1 then wtx.markUnspent p.2 else wtx) wtx

def walletUpdateSpent (mapWallet : MapWallet) (tx : CTransaction) (fBlock : Bool) : MapWallet :=
  let mapWallet := tx.vin.foldl (updateSpentIn env) mapWallet
  if fBlock then
    match mapWallet.lookup (env.crypto.txHash tx) with
    | none => mapWallet
    | some wtx => mapWallet.insert (env.crypto.txHash tx) (markOwnUnspent env wtx tx.vout)
  else mapWallet

/-- The transaction inserted, or the one found with the new data. -/
def inserted (mapWallet : MapWallet) (wtxIn : CWalletTx) : CWalletTx :=
  match mapWallet.lookup (env.crypto.txHash wtxIn.tx) with
  | none => wtxIn.markDirty
  | some wtx => wtx.markDirty.merge wtxIn

def addToWallet (mapWallet : MapWallet) (wtxIn : CWalletTx) : MapWallet :=
  walletUpdateSpent env
    (mapWallet.insert (env.crypto.txHash wtxIn.tx) (inserted env mapWallet wtxIn))
    (inserted env mapWallet wtxIn).tx (wtxIn.hashBlock ≠ 0)

end MapWallet

/-! ## Calls -/

/-- The block index and the files, as they are during a call. -/
structure ChainView where
  m : MainChain
  db : TxDB
  readBlock : UInt32 → UInt32 → Option CBlock

/-- The transaction for the wallet, with its branch if it was found in a block. -/
def CWalletTx.ofBlock {C : Crypto} (view : ChainView) (tx : CTransaction) :
    Option (TreeBlock C) → CWalletTx
  | none => .new tx
  | some p =>
    { CWalletTx.new tx with
      toCMerkleTx := ((CWalletTx.new tx).toCMerkleTx.setMerkleBranch C view.m view.db view.readBlock
        (some p)).1 }

/-- `fExisted || IsMine(tx) || IsFromMe(tx)`. -/
def MapWallet.isInvolved (env : WalletEnv) (mapWallet : MapWallet) (tx : CTransaction) :
    Option Bool :=
  if (mapWallet.lookup (env.crypto.txHash tx)).isSome || env.isMineTx tx then some true
  else mapWallet.isFromMe env tx

/-- `AddToWalletIfInvolvingMe`, with `fUpdate`. -/
def MapWallet.addToWalletIfInvolvingMe (env : WalletEnv) (mapWallet : MapWallet) (view : ChainView)
    (tx : CTransaction) (pblock : Option (TreeBlock env.crypto)) (fUpdate : Bool) :
    Option MapWallet :=
  if (mapWallet.lookup (env.crypto.txHash tx)).isSome && !fUpdate then some mapWallet
  else do
    let fInvolved ← mapWallet.isInvolved env tx
    some (if fInvolved then mapWallet.addToWallet env (.ofBlock view tx pblock)
      else mapWallet.walletUpdateSpent env tx false)

/-- `mapWallet`, and which transactions were delivered. -/
structure WalletState where
  mapWallet : MapWallet
  /-- the last first; no call reads this -/
  vDelivered : List CTransaction

inductive WalletCall (C : Crypto)
  /-- `AddToWalletIfInvolvingMe(tx, pblock, true)` -/
  | deliver (view : ChainView) (tx : CTransaction) (pblock : Option (TreeBlock C))
  /-- `GetAvailableCredit(fUseCache)` of a transaction in the wallet -/
  | getAvailableCredit (m : MainChain) (hash : Uint256) (fUseCache : Bool)

/-- A call, if it does not throw. -/
def WalletState.step (env : WalletEnv) (s : WalletState) :
    WalletCall env.crypto → Option WalletState
  | .deliver view tx pblock => do
    let mapWallet ← s.mapWallet.addToWalletIfInvolvingMe env view tx pblock true
    some ⟨mapWallet, tx :: s.vDelivered⟩
  | .getAvailableCredit m hash fUseCache => match s.mapWallet.lookup hash with
    | none => some s
    | some wtx => do
      let r ← wtx.getAvailableCredit env m fUseCache
      some { s with mapWallet := s.mapWallet.insert hash r.1 }

/-! ## Address groupings

`CWallet::GetAddressGroupings`: the addresses of the inputs of a transaction belong together, with
its change, and groupings that share an address are merged.

A `std::set` is a `Finset`; the order in which the groupings are taken is any order. The pointers to
the groups are numbers: a new one is not in use, and may have been in use before. What `delete` was
called for must not be read any more; there is no result if it is. -/

variable {Address : Type} [DecidableEq Address]

/-! ## Collecting -/

/-- The wallet, and what the loops depend on. -/
structure AddressView (Address : Type) where
  env : WalletEnv
  mapWallet : MapWallet
  /-- `ExtractAddress(*this, scriptPubKey, address)` -/
  extractAddress : CScript → Option Address
  isChange : CTxOut → Bool
  /-- how the groupings are ordered -/
  order : Finset (Finset Address) → List (Finset Address)
  mem_order : ∀ s g, g ∈ order s ↔ g ∈ s
  /-- `new`, by the pointers in use -/
  alloc : List Nat → Nat
  alloc_new : ∀ l, alloc l ∉ l

namespace AddressView

variable (view : AddressView Address)

/-- The addresses of the outputs of the wallet that the inputs spend. -/
def inputAddresses (tx : CTransaction) : Finset Address :=
  (tx.vin.filterMap fun txin => do
    let txout ← view.mapWallet.prevOut txin.prevout
    if view.env.owns txout then view.extractAddress txout.scriptPubKey else none).toFinset

def changeAddresses (tx : CTransaction) : Finset Address :=
  (tx.vout.filterMap fun txout =>
    if view.isChange txout then view.extractAddress txout.scriptPubKey else none).toFinset

/-- All input addresses with each other, and change with input addresses. -/
def inputGroupings (tx : CTransaction) : List (Finset Address) :=
  if view.inputAddresses tx = ∅ then [] else [view.inputAddresses tx ∪ view.changeAddresses tx]

/-- Lone addresses by themselves. -/
def outputGroupings (tx : CTransaction) : List (Finset Address) :=
  tx.vout.filterMap fun txout =>
    if view.env.owns txout then (view.extractAddress txout.scriptPubKey).map ({·}) else none

def groupings : Finset (Finset Address) :=
  (view.mapWallet.entries.flatMap fun walletEntry =>
    view.inputGroupings walletEntry.2.tx ++ view.outputGroupings walletEntry.2.tx).toFinset

end AddressView

/-! ## Merging -/

/-- `uniqueGroupings` with what the pointers point to, and `setmap`. -/
structure Groups (Address : Type) where
  uniqueGroupings : AList fun _ : Nat => Finset Address
  setmap : Address → Option Nat

namespace Groups

/-- The groups hit by a new one. -/
def hits (s : Groups Address) (grouping : Finset Address) : Finset Nat :=
  grouping.biUnion fun address => (s.setmap address).toFinset

/-- The new group with those it hits. -/
def merged (s : Groups Address) (grouping : Finset Address) : Finset Address :=
  grouping ∪ (s.hits grouping).biUnion fun hit => (s.uniqueGroupings.lookup hit).getD ∅

def merge (alloc : List Nat → Nat) (s : Groups Address) (grouping : Finset Address) :
    Option (Groups Address) :=
  if ∀ hit ∈ s.hits grouping, (s.uniqueGroupings.lookup hit).isSome then
    let p := alloc s.uniqueGroupings.keys
    some {
      uniqueGroupings :=
        (AssocMap.filter (fun hit _ => hit ∉ s.hits grouping) s.uniqueGroupings).insert p
          (s.merged grouping)
      setmap := fun address => if address ∈ s.merged grouping then some p else s.setmap address }
  else none

end Groups

def AddressView.getAddressGroupings (view : AddressView Address) : Option (Finset (Finset Address)) := do
  let s ← (view.order view.groupings).foldlM (Groups.merge view.alloc) ⟨∅, fun _ => none⟩
  some (s.uniqueGroupings.entries.map (·.2)).toFinset

end NovaCoin
