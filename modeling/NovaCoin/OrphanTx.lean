import NovaCoin.Infra.WorkQueue
import NovaCoin.Mempool
import NovaCoin.Unserialize

/-!
# Orphan transactions

`mapOrphanTransactions` and `mapOrphanTransactionsByPrev` with the functions that change them, and
the `tx` branch of `ProcessMessage` (`main.cpp`).

The memory pool is a parameter: any state with any `AcceptToMemoryPool` on it, whose error says
whether inputs are missing. What the branch does to the wallets and the network is a list of
events.
-/

namespace NovaCoin

/-- `AcceptToMemoryPool` on a state `π` of the pool and of what it reads. -/
abbrev Accept (π : Type) := π → CTransaction → π × Except (Bool × Reject) Unit

def MAX_ORPHAN_TRANSACTIONS : Nat := MAX_BLOCK_SIZE / 100

/-- Some input spends an output of `hashPrev`. -/
def CTransaction.spendsFrom (tx : CTransaction) (hashPrev : Uint256) : Bool :=
  tx.vin.any fun txin => txin.prevout.hash == hashPrev

/-- The two maps. A `std::set` is the list of its members in their order. -/
structure OrphanTxs where
  mapOrphanTransactions : AList fun _ : Uint256 => CTransaction
  mapOrphanTransactionsByPrev : AList fun _ : Uint256 => List Uint256

namespace OrphanTxs

def empty : OrphanTxs := ⟨∅, ∅⟩

/-- The set under a key; empty if there is none. -/
def waiting (orphans : OrphanTxs) (hashPrev : Uint256) : List Uint256 :=
  (orphans.mapOrphanTransactionsByPrev.lookup hashPrev).getD []

/-- The subscript operator on `mapOrphanTransactionsByPrev`, which adds a missing key with an empty
set. -/
def subscript (orphans : OrphanTxs) (hashPrev : Uint256) : OrphanTxs :=
  if hashPrev ∈ orphans.mapOrphanTransactionsByPrev then orphans
  else { orphans with
    mapOrphanTransactionsByPrev := orphans.mapOrphanTransactionsByPrev.insert hashPrev [] }

/-- The subscript operator on `mapOrphanTransactions`, which adds a transaction as constructed. -/
def subscriptTx (nullTx : CTransaction) (orphans : OrphanTxs) (hash : Uint256) :
    CTransaction × OrphanTxs :=
  match orphans.mapOrphanTransactions.lookup hash with
  | some tx => (tx, orphans)
  | none => (nullTx, { orphans with
      mapOrphanTransactions := orphans.mapOrphanTransactions.insert hash nullTx })

/-- `insert` of a `std::set`. -/
def insertHash (hash : Uint256) (s : List Uint256) : List Uint256 :=
  if hash ∈ s then s else s.orderedInsert (· ≤ ·) hash

/-- The loop of `AddOrphanTx`. -/
def addToPrevs (hash : Uint256) (byPrev : AList fun _ : Uint256 => List Uint256)
    (vin : List CTxIn) : AList fun _ : Uint256 => List Uint256 :=
  vin.foldl (fun byPrev txin =>
    byPrev.insert txin.prevout.hash
      (insertHash hash ((byPrev.lookup txin.prevout.hash).getD []))) byPrev

def addOrphanTx (crypto : Crypto) (orphans : OrphanTxs) (tx : CTransaction) : Bool × OrphanTxs :=
  let hash := crypto.txHash tx
  if hash ∈ orphans.mapOrphanTransactions then (false, orphans)
  else if 5000 < tx.nSerSize.toNat then (false, orphans)
  else (true,
    { mapOrphanTransactions := orphans.mapOrphanTransactions.insert hash tx
      mapOrphanTransactionsByPrev := addToPrevs hash orphans.mapOrphanTransactionsByPrev tx.vin })

/-- The loop of `EraseOrphanTx`. -/
def eraseFromPrevs (hash : Uint256) (byPrev : AList fun _ : Uint256 => List Uint256)
    (vin : List CTxIn) : AList fun _ : Uint256 => List Uint256 :=
  vin.foldl (fun byPrev txin =>
    let s := ((byPrev.lookup txin.prevout.hash).getD []).filter (· != hash)
    if s.isEmpty then byPrev.erase txin.prevout.hash else byPrev.insert txin.prevout.hash s) byPrev

def eraseOrphanTx (orphans : OrphanTxs) (hash : Uint256) : OrphanTxs :=
  match orphans.mapOrphanTransactions.lookup hash with
  | none => orphans
  | some tx =>
    { mapOrphanTransactions := orphans.mapOrphanTransactions.erase hash
      mapOrphanTransactionsByPrev :=
        eraseFromPrevs hash orphans.mapOrphanTransactionsByPrev tx.vin }

/-- The keys of `mapOrphanTransactions` in their order. -/
def sortedKeys (orphans : OrphanTxs) : List Uint256 :=
  orphans.mapOrphanTransactions.keys.insertionSort (· ≤ ·)

def size (orphans : OrphanTxs) : Nat := orphans.mapOrphanTransactions.keys.length

/-- The loop of `LimitOrphanTxSize`; `rand` is what `GetRandHash` gives. Every round evicts an
orphan. -/
def limitLoop (rand : Nat → Uint256) (nMaxOrphans : Nat) : Nat → Nat → OrphanTxs → Nat × OrphanTxs
  | 0, nEvicted, orphans => (nEvicted, orphans)
  | fuel + 1, nEvicted, orphans =>
    if nMaxOrphans < orphans.size then
      -- `lower_bound`, or the first one
      match (orphans.sortedKeys.find? fun hash => rand nEvicted ≤ hash).or
          orphans.sortedKeys.head? with
      | none => (nEvicted, orphans)
      | some hash => limitLoop rand nMaxOrphans fuel (nEvicted + 1) (orphans.eraseOrphanTx hash)
    else (nEvicted, orphans)

def limitOrphanTxSize (rand : Nat → Uint256) (nMaxOrphans : Nat) (orphans : OrphanTxs) :
    Nat × OrphanTxs :=
  limitLoop rand nMaxOrphans orphans.size 0 orphans

end OrphanTxs

/-! ## The tx message -/

/-- What the branch does outside of the pool and the orphans. -/
inductive TxEvent
  | addInventoryKnown (hash : Uint256)
  | syncWithWallets (tx : CTransaction)
  | relayTransaction (tx : CTransaction) (hash : Uint256)
  /-- `mapAlreadyAskedFor.erase` -/
  | eraseAskedFor (hash : Uint256)
  | misbehaving (howmuch : Nat)
  deriving DecidableEq

/-- The state of the branch. -/
structure TxWork (π : Type) where
  pool : π
  orphans : OrphanTxs
  events : List TxEvent
  vWorkQueue : List Uint256
  vEraseQueue : List Uint256

section

variable {π : Type} (crypto : Crypto) (accept : Accept π)

/-- The body of the inner loop. It is the received `tx` that the wallets are told of. -/
def visitOrphan (nullTx tx : CTransaction) (w : TxWork π) (orphanTxHash : Uint256) : TxWork π :=
  let (orphanTx, orphans) := w.orphans.subscriptTx nullTx orphanTxHash
  match accept w.pool orphanTx with
  | (pool, .ok ()) =>
    { pool, orphans
      events := w.events ++ [.syncWithWallets tx, .relayTransaction orphanTx orphanTxHash,
        .eraseAskedFor orphanTxHash]
      vWorkQueue := w.vWorkQueue ++ [orphanTxHash]
      vEraseQueue := w.vEraseQueue ++ [orphanTxHash] }
  | (pool, .error (fMissingInputs2, _)) =>
    { w with
      pool, orphans
      vEraseQueue := if fMissingInputs2 then w.vEraseQueue else w.vEraseQueue ++ [orphanTxHash] }

/-- The body of the outer loop. -/
def visitPrev (nullTx tx : CTransaction) (w : TxWork π) (hashPrev : Uint256) : TxWork π :=
  let orphans := w.orphans.subscript hashPrev
  (orphans.waiting hashPrev).foldl (visitOrphan accept nullTx tx) { w with orphans }

/-- Both loops. -/
def processOrphans (nullTx tx : CTransaction) (fuel : Nat) (w : TxWork π) : Option (TxWork π) :=
  WorkQueue.run TxWork.vWorkQueue (visitPrev accept nullTx tx) fuel 0 w

/-- A received transaction, with the pool at that time, the results of `GetRandHash`, a transaction
as constructed, and a bound for the rounds. -/
structure TxMessage (π : Type) where
  tx : CTransaction
  pool : π
  rand : Nat → Uint256
  nullTx : CTransaction
  fuel : Nat

/-- The state in which the loops begin, when the received transaction has been accepted. -/
def acceptedWork (orphans : OrphanTxs) (msg : TxMessage π) (pool : π) : TxWork π :=
  let hash := crypto.txHash msg.tx
  { pool, orphans
    events := [.addInventoryKnown hash, .syncWithWallets msg.tx,
      .relayTransaction msg.tx hash, .eraseAskedFor hash]
    vWorkQueue := [hash]
    vEraseQueue := [hash] }

/-- The branch for `tx` of `ProcessMessage`. -/
def processTx (orphans : OrphanTxs) (msg : TxMessage π) : Option (TxWork π) :=
  let hash := crypto.txHash msg.tx
  match accept msg.pool msg.tx with
  | (pool, .ok ()) => do
    let w ← processOrphans accept msg.nullTx msg.tx msg.fuel (acceptedWork crypto orphans msg pool)
    some { w with orphans := w.vEraseQueue.foldl OrphanTxs.eraseOrphanTx w.orphans }
  | (pool, .error (fMissingInputs, reject)) =>
    let orphans :=
      if fMissingInputs then
        ((orphans.addOrphanTx crypto msg.tx).2.limitOrphanTxSize msg.rand
          MAX_ORPHAN_TRANSACTIONS).2
      else orphans
    some
      { pool, orphans
        events := .addInventoryKnown hash ::
          if reject.nDoS = 0 then [] else [.misbehaving reject.nDoS]
        vWorkQueue := []
        vEraseQueue := [] }

/-- One message after the other. -/
def processTxs (orphans : OrphanTxs) (msgs : List (TxMessage π)) : Option OrphanTxs :=
  msgs.foldlM (fun orphans msg => (processTx crypto accept orphans msg).map (·.orphans)) orphans

end

end NovaCoin
