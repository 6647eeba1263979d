import NovaCoin.Infra.AssocMap
import NovaCoin.Inputs

/-!
# The memory pool

`CTxMemPool`: `accept` with all its checks in their order, `addUnchecked`, `remove` and `clear`.
The replacement of a transaction by a newer version is dead code in the source (a conflict
returns before it), so it is left out.

The standardness rules and the rate limiter for free transactions are parameters (`Policy`): the
pool is the same whatever they decide. So are the index, the best chain and the clock, which
change between two calls.
-/

namespace NovaCoin

open Guard

/-- `CTxMemPool`. A `CInPoint` is a key of `mapTx` and an input number. -/
structure CTxMemPool where
  mapTx : AList fun _ : Uint256 => CTransaction
  mapNextTx : AList fun _ : COutPoint => Uint256 × Nat

/-- The surroundings with this pool as `mempool`. -/
def Env.withPool (env : Env) (pool : CTxMemPool) : Env :=
  { env with mempool := fun hash => pool.mapTx.lookup hash }

variable {hash : Uint256} {env : Env} {tx : CTransaction}

namespace CTxMemPool

def empty : CTxMemPool := ⟨∅, ∅⟩

def addUnchecked (pool : CTxMemPool) (hash : Uint256) (tx : CTransaction) : CTxMemPool where
  mapTx := pool.mapTx.insert hash tx
  mapNextTx := tx.vin.zipIdx.foldl (fun mapNextTx input =>
    mapNextTx.insert input.1.prevout (hash, input.2)) pool.mapNextTx

def remove (crypto : Crypto) (pool : CTxMemPool) (tx : CTransaction) : CTxMemPool :=
  let hash := crypto.txHash tx
  if hash ∈ pool.mapTx then
    { mapTx := pool.mapTx.erase hash
      mapNextTx := tx.vin.foldl (fun mapNextTx txin => mapNextTx.erase txin.prevout) pool.mapNextTx }
  else pool

def clear (_pool : CTxMemPool) : CTxMemPool := empty

variable {pool : CTxMemPool}

theorem lookup_addUnchecked {k : Uint256} :
    (pool.addUnchecked hash tx).mapTx.lookup k =
      if k = hash then some tx else pool.mapTx.lookup k :=
  AssocMap.lookup_insert_ite pool.mapTx hash k tx

theorem lookup_remove {crypto : Crypto} {t : CTransaction} :
    (pool.remove crypto tx).mapTx.lookup hash = some t ↔
      pool.mapTx.lookup hash = some t ∧ hash ≠ crypto.txHash tx := by
  rw [remove]
  by_cases hk : hash = crypto.txHash tx
  · subst hk
    split
    · simp [AList.lookup_erase]
    · next hmem =>
      rw [← AList.lookup_eq_none] at hmem
      simp [hmem]
  · split
    · simp [hk, AList.lookup_erase_ne hk]
    · simp [hk]

/-- `mapTx` in the order of its keys. -/
def txs (pool : CTxMemPool) : List CTransaction :=
  (pool.mapTx.entries.insertionSort fun a b => a.1 ≤ b.1).map (·.2)

theorem mem_txs_iff : tx ∈ pool.txs ↔ ∃ hash, pool.mapTx.lookup hash = some tx := by
  simp only [txs, List.mem_map, List.mem_insertionSort]
  constructor
  · rintro ⟨⟨hash, tx⟩, hm, rfl⟩
    exact ⟨hash, AList.mem_lookup_iff.mpr hm⟩
  · rintro ⟨hash, hl⟩
    exact ⟨⟨hash, tx⟩, AList.mem_lookup_iff.mp hl, rfl⟩

end CTxMemPool

/-- What `accept` asks of the rest of the program. -/
structure Policy where
  /-- `IsStandard`: `strNonStd` of a transaction that is not standard -/
  nonStandard : CTransaction → Option String
  areInputsStandard : CTransaction → MapPrevTx → Bool
  /-- `dFreeCount` is over the limit and the transaction is not from this wallet -/
  rateLimited : CTransaction → Bool

/-- The checks of the inputs. The flag of an error is `*pfMissingInputs`. -/
def checkPoolInputs (env : Env) (policy : Policy) (db : TxDB) (pindexBest : PIndex)
    (tx : CTransaction) : Except (Bool × Reject) Unit := do
  let mapInputs ← (fetchInputs env db ∅ false false tx).mapError fun (fInvalid, r) =>
    if fInvalid then (false, r.relabel "CTxMemPool::accept() : FetchInputs found invalid tx")
    else (true, .error "")
  require (policy.areInputsStandard tx mapInputs || env.fTestNet)
    (false, .error "CTxMemPool::accept() : nonstandard transaction input")
  let nValueIn ← (tx.getValueIn mapInputs).mapError fun r => (false, r)
  let nValueOut ← tx.getValueOut.mapError fun r => (false, r)
  let nFees := nValueIn - nValueOut
  require (tx.getMinFee 1000 true .GMF_RELAY tx.getSerializeSize ≤ nFees)
    (false, .error "CTxMemPool::accept() : not enough fees")
  require (!(nFees < MIN_RELAY_TX_FEE && policy.rateLimited tx))
    (false, .error "CTxMemPool::accept() : free transaction rejected by rate limiter")
  let _ ← (connectInputs env db mapInputs ∅
    { posThisTx := .inMemory, pindexBlock := pindexBest, fBlock := false, fMiner := false,
      fScriptChecks := true, flags := STRICT_FLAGS, pvChecks := false } tx).mapError fun r =>
    (false, r.relabel "CTxMemPool::accept() : ConnectInputs failed")

/-- The part of `accept` that `fCheckInputs` turns on. -/
def acceptInputs (env : Env) (policy : Policy) (db : TxDB) (pindexBest : PIndex) (tx : CTransaction)
    (fCheckInputs : Bool) : Except (Bool × Reject) Unit :=
  if fCheckInputs then checkPoolInputs env policy db pindexBest tx else .ok ()

/-- `CTxMemPool::accept`, whose checks come in the order of the source. -/
def CTxMemPool.accept (env : Env) (policy : Policy) (db : TxDB) (pindexBest : PIndex)
    (pool : CTxMemPool) (tx : CTransaction) (fCheckInputs : Bool) :
    Except (Bool × Reject) CTxMemPool := do
  require ((tx.nTime.toNat : Int) ≤ futureDrift env.getAdjustedTime)
    (false, ⟨10, "CTxMemPool::accept() : transaction timestamp is too far in the future"⟩)
  tx.checkTransaction.mapError fun r =>
    (false, r.relabel "CTxMemPool::accept() : CheckTransaction failed")
  require (!tx.isCoinBase) (false, ⟨100, "CTxMemPool::accept() : coinbase as individual tx"⟩)
  require (!tx.isCoinStake) (false, ⟨100, "CTxMemPool::accept() : coinstake as individual tx"⟩)
  require (tx.nLockTime.toNat ≤ 2147483647)
    (false, .error "CTxMemPool::accept() : not accepting nLockTime beyond 2038 yet")
  require (env.fTestNet || (policy.nonStandard tx).isNone)
    (false, .error ("CTxMemPool::accept() : nonstandard transaction (" ++
      (policy.nonStandard tx).getD "" ++ ")"))
  let hash := env.txHash tx
  require (hash ∉ pool.mapTx) (false, .error "")
  require (!(fCheckInputs && (db.lookup hash).isSome)) (false, .error "")
  -- conflicts with transactions in the pool
  require (tx.vin.all fun txin => txin.prevout ∉ pool.mapNextTx) (false, .error "")
  acceptInputs (env.withPool pool) policy db pindexBest tx fCheckInputs
  pure (pool.addUnchecked hash tx)

/-- The checks of `accept` that look at nothing but the transaction and the clock. -/
def isResurrectable (env : Env) (policy : Policy) (tx : CTransaction) : Bool :=
  (tx.nTime.toNat : Int) ≤ futureDrift env.getAdjustedTime && !tx.isCoinBase && !tx.isCoinStake &&
    tx.nLockTime.toNat ≤ 2147483647 && (env.fTestNet || (policy.nonStandard tx).isNone)

variable {policy : Policy}

theorem ordinary_of_isResurrectable (h : isResurrectable env policy tx) :
    tx.isCoinBase = false ∧ tx.isCoinStake = false := by
  simp only [isResurrectable, Bool.and_eq_true, Bool.not_eq_true'] at h
  exact ⟨h.1.1.1.2, h.1.1.2⟩

/-! ## Reachable pools -/

/-- The pools that calls of `accept`, `remove` and `clear` lead to, in whatever surroundings. -/
inductive CTxMemPool.Reachable (crypto : Crypto) : CTxMemPool → Prop
  | empty : Reachable crypto .empty
  | accept {pool pool' : CTxMemPool} (env : Env) (policy : Policy) (db : TxDB) (pindexBest : PIndex)
      (tx : CTransaction) (fCheckInputs : Bool) (henv : env.crypto = crypto)
      (reachable : Reachable crypto pool)
      (ok : pool.accept env policy db pindexBest tx fCheckInputs = .ok pool') :
      Reachable crypto pool'
  | remove {pool : CTxMemPool} (tx : CTransaction) (reachable : Reachable crypto pool) :
      Reachable crypto (pool.remove crypto tx)
  | clear {pool : CTxMemPool} (reachable : Reachable crypto pool) : Reachable crypto pool.clear

/-- What `accept` has established of a transaction in the pool. -/
structure PoolTx (crypto : Crypto) (hash : Uint256) (tx : CTransaction) : Prop where
  hash : crypto.txHash tx = hash
  checked : tx.checkTransaction = .ok ()
  not_coinBase : tx.isCoinBase = false
  not_coinStake : tx.isCoinStake = false

/-- Every transaction of a pool is under its hash and was checked. -/
def CTxMemPool.Checked (crypto : Crypto) (pool : CTxMemPool) : Prop :=
  ∀ hash tx, pool.mapTx.lookup hash = some tx → PoolTx crypto hash tx

/-- What `accept` has established when it adds a transaction to a pool. -/
structure CTxMemPool.Acceptable (env : Env) (policy : Policy) (db : TxDB) (pindexBest : PIndex)
    (pool : CTxMemPool) (tx : CTransaction) (fCheckInputs : Bool) : Prop where
  poolTx : PoolTx env.crypto (env.txHash tx) tx
  fresh : env.txHash tx ∉ pool.mapTx
  noConflict : ∀ txin ∈ tx.vin, txin.prevout ∉ pool.mapNextTx
  inputs : acceptInputs (env.withPool pool) policy db pindexBest tx fCheckInputs = .ok ()

section Reachable

variable {crypto : Crypto} {pool pool' : CTxMemPool}

variable {db : TxDB} {pindexBest : PIndex} {fCheckInputs : Bool}

/-- All that `accept` asks for. -/
theorem CTxMemPool.accept_eq_ok_iff :
    pool.accept env policy db pindexBest tx fCheckInputs = .ok pool' ↔
      isResurrectable env policy tx ∧ tx.checkTransaction = .ok () ∧
      env.txHash tx ∉ pool.mapTx ∧ (fCheckInputs → db.lookup (env.txHash tx) = none) ∧
      (∀ txin ∈ tx.vin, txin.prevout ∉ pool.mapNextTx) ∧
      acceptInputs (env.withPool pool) policy db pindexBest tx fCheckInputs = .ok () ∧
      pool' = pool.addUnchecked (env.txHash tx) tx := by
  have hindex : (!(fCheckInputs && (db.lookup (env.txHash tx)).isSome)) = true ↔
      (fCheckInputs → db.lookup (env.txHash tx) = none) := by
    cases fCheckInputs <;> simp
  simp only [CTxMemPool.accept, isResurrectable, unit_bind_eq_ok, require_eq_ok, mapError_eq_ok, hindex,
    Bool.and_eq_true, decide_eq_true_eq, List.all_eq_true, pure, Except.pure, Except.ok.injEq]
  tauto

/-- `accept` adds a transaction that it has checked. -/
theorem CTxMemPool.accept_eq_ok
    (h : pool.accept env policy db pindexBest tx fCheckInputs = .ok pool') :
    pool.Acceptable env policy db pindexBest tx fCheckInputs ∧
      pool' = pool.addUnchecked (env.txHash tx) tx := by
  obtain ⟨hres, hcheck, hfresh, -, hconflict, hinputs, rfl⟩ := CTxMemPool.accept_eq_ok_iff.mp h
  obtain ⟨hcb, hcs⟩ := ordinary_of_isResurrectable hres
  exact ⟨⟨⟨rfl, hcheck, hcb, hcs⟩, hfresh, hconflict, hinputs⟩, rfl⟩

theorem CTxMemPool.Checked.addUnchecked (h : pool.Checked crypto) (htx : PoolTx crypto hash tx) :
    (pool.addUnchecked hash tx).Checked crypto := by
  intro k t hk
  rw [CTxMemPool.lookup_addUnchecked] at hk
  split at hk
  · next he =>
    cases hk
    exact he ▸ htx
  · exact h k t hk

theorem CTxMemPool.Checked.remove (h : pool.Checked crypto) (tx : CTransaction) :
    (pool.remove crypto tx).Checked crypto :=
  fun k t hk => h k t (CTxMemPool.lookup_remove.mp hk).1

theorem CTxMemPool.Reachable.checked (h : CTxMemPool.Reachable crypto pool) : pool.Checked crypto := by
  induction h with
  | empty => exact fun _ _ hn => by cases hn
  | accept env policy db pindexBest tx fCheckInputs henv _ hok ih =>
    obtain ⟨htx, rfl⟩ := CTxMemPool.accept_eq_ok hok
    subst henv
    exact ih.addUnchecked htx.poolTx
  | remove tx _ ih => exact ih.remove tx
  | clear => exact fun _ _ hn => by cases hn

end Reachable

end NovaCoin
