import NovaCoin.Mempool
import NovaCoin.Properties.Disconnect
import NovaCoin.Reorganize

/-!
# The index of the memory pool

`mapNextTx` says which transaction of the pool spends an outpoint. `addUnchecked` writes its entries
without looking and `remove` erases those of the inputs of its argument, whoever they belong to. It
stays the inverse of the inputs of `mapTx` since `accept` refuses a transaction with an input that
has an entry or with the same input twice.
-/

namespace NovaCoin

open Guard SpentIndex List

/-! ## The two loops -/

variable {i : Nat} {l : List CTransaction} {txin : CTxIn} {o : COutPoint} {hash : Uint256}
  {crypto : Crypto} {known : Set CTransaction} {pool : CTxMemPool} {env : Env} {db : TxDB}

theorem lookup_addInputs_of_ne : ∀ {l : List (CTxIn × Nat)}
    {mapNextTx : AList fun _ : COutPoint => Uint256 × Nat}, (∀ input ∈ l, o ≠ input.1.prevout) →
      (l.foldl (fun mapNextTx input => mapNextTx.insert input.1.prevout (hash, input.2))
        mapNextTx).lookup o = mapNextTx.lookup o
  | [], _, _ => rfl
  | _ :: _, _, h => by
    rw [forall_mem_cons] at h
    rw [foldl_cons, lookup_addInputs_of_ne h.2, AList.lookup_insert_ne h.1]

theorem lookup_addInputs_of_mem : ∀ {l : List (CTxIn × Nat)}
    {mapNextTx : AList fun _ : COutPoint => Uint256 × Nat}, (l.map (·.1.prevout)).Nodup →
      (txin, i) ∈ l →
      (l.foldl (fun mapNextTx input => mapNextTx.insert input.1.prevout (hash, input.2))
        mapNextTx).lookup txin.prevout = some (hash, i)
  | input :: l, mapNextTx, hd, hmem => by
    rw [map_cons, nodup_cons] at hd
    rw [foldl_cons]
    rcases mem_cons.mp hmem with rfl | hmem
    · have hne : ∀ later ∈ l, txin.prevout ≠ later.1.prevout := by
        intro later hl he
        exact hd.1 (he ▸ mem_map_of_mem hl)
      rw [lookup_addInputs_of_ne hne, AList.lookup_insert]
    · exact lookup_addInputs_of_mem hd.2 hmem

theorem lookup_eraseInputs : ∀ {vin : List CTxIn}
    {mapNextTx : AList fun _ : COutPoint => Uint256 × Nat},
      (vin.foldl (fun mapNextTx txin => mapNextTx.erase txin.prevout) mapNextTx).lookup o =
        if o ∈ vin.map (·.prevout) then none else mapNextTx.lookup o
  | [], _ => by simp
  | txin :: vin, mapNextTx => by
    rw [foldl_cons, lookup_eraseInputs, map_cons]
    by_cases hmem : o ∈ vin.map (·.prevout)
    · rw [if_pos hmem, if_pos (mem_cons_of_mem _ hmem)]
    · by_cases he : o = txin.prevout
      · rw [if_neg hmem, if_pos (mem_cons.mpr (.inl he)), he, AList.lookup_erase]
      · rw [if_neg hmem, if_neg (by simp_all), AList.lookup_erase_ne he]

/-! ## The invariant -/

/-- Input `i` of the transaction under `hash` in the pool spends the outpoint. -/
def CTxMemPool.Spends (pool : CTxMemPool) (hash : Uint256) (i : Nat) (o : COutPoint) : Prop :=
  ∃ tx txin, pool.mapTx.lookup hash = some tx ∧ tx.vin[i]? = some txin ∧ txin.prevout = o

/-- The pool holds checked transactions of a set, and `mapNextTx` is the index of their inputs. -/
structure CTxMemPool.Indexed (crypto : Crypto) (known : Set CTransaction) (pool : CTxMemPool) :
    Prop where
  checked : pool.Checked crypto
  known : ∀ hash tx, pool.mapTx.lookup hash = some tx → tx ∈ known
  next : ∀ o hash i, pool.mapNextTx.lookup o = some (hash, i) ↔ pool.Spends hash i o

section Indexed

theorem CTxMemPool.indexed_empty : CTxMemPool.Indexed crypto known .empty where
  checked := fun _ _ hn => by cases hn
  known := fun _ _ hn => by cases hn
  next := by
    intro o hash i
    constructor
    · rintro ⟨⟩
    · rintro ⟨_, _, ⟨⟩, _⟩

variable {tx : CTransaction}

/-- A transaction that spends an outpoint with an entry in `mapNextTx` is the one of the entry. -/
theorem CTxMemPool.Indexed.spends_unique (h : pool.Indexed crypto known) {hash' : Uint256}
    {i' : Nat} (hs : pool.Spends hash i o) (hs' : pool.Spends hash' i' o) :
    hash = hash' ∧ i = i' := by
  have he := ((h.next o hash i).mpr hs).symm.trans ((h.next o hash' i').mpr hs')
  simpa using he

theorem CTxMemPool.Indexed.mem_of_spends (h : pool.Indexed crypto known) (hs : pool.Spends hash i o) :
    o ∈ pool.mapNextTx := by
  rw [← AList.lookup_isSome, (h.next o hash i).mpr hs]
  rfl

/-! ### Adding -/

theorem CTxMemPool.spends_addUnchecked_self :
    (pool.addUnchecked hash tx).Spends hash i o ↔
      ∃ txin, tx.vin[i]? = some txin ∧ txin.prevout = o := by
  simp [Spends, lookup_addUnchecked]

theorem CTxMemPool.spends_addUnchecked_of_ne {k : Uint256} (hne : k ≠ hash) :
    (pool.addUnchecked hash tx).Spends k i o ↔ pool.Spends k i o := by
  simp [Spends, lookup_addUnchecked, hne]

/-- The outpoints are new to `mapNextTx`, so no earlier entry is overwritten. -/
theorem CTxMemPool.Indexed.addUnchecked (h : pool.Indexed crypto known)
    (htx : PoolTx crypto hash tx) (hknown : tx ∈ known) (hfresh : hash ∉ pool.mapTx)
    (hconflict : ∀ txin ∈ tx.vin, txin.prevout ∉ pool.mapNextTx) :
    (pool.addUnchecked hash tx).Indexed crypto known where
  checked := h.checked.addUnchecked htx
  known := by
    intro k t hk
    rw [CTxMemPool.lookup_addUnchecked] at hk
    split at hk
    · cases hk
      exact hknown
    · exact h.known k t hk
  next := by
    intro o k i
    have hnodup := CTransaction.nodup_of_checkTransaction htx.checked
    have hd : (tx.vin.zipIdx.map (·.1.prevout)).Nodup := by
      have hvin := congrArg (map CTxIn.prevout) (zipIdx_map_fst 0 tx.vin)
      rw [map_map] at hvin
      exact hvin ▸ hnodup
    by_cases ho : o ∈ tx.vin.map (·.prevout)
    · -- the entry is the new one, and there was none before
      obtain ⟨txin, hmem, rfl⟩ := mem_map.mp ho
      obtain ⟨j, hj⟩ := mem_iff_getElem?.mp hmem
      have hnew : (pool.addUnchecked hash tx).mapNextTx.lookup txin.prevout = some (hash, j) :=
        lookup_addInputs_of_mem hd (mem_zipIdx_iff_getElem?.mpr hj)
      rw [hnew, Option.some.injEq, Prod.mk.injEq]
      constructor
      · rintro ⟨rfl, rfl⟩
        exact CTxMemPool.spends_addUnchecked_self.mpr ⟨txin, hj, rfl⟩
      · intro hs
        by_cases he : k = hash
        · rw [he, CTxMemPool.spends_addUnchecked_self] at hs
          obtain ⟨txin', hi, hprev⟩ := hs
          have hlt : j < (tx.vin.map (·.prevout)).length := by
            rw [length_map]
            exact (List.getElem?_eq_some_iff.mp hj).1
          refine ⟨he.symm, (getElem?_inj hlt hnodup).mp ?_⟩
          rw [getElem?_map, getElem?_map, hi, hj, Option.map_some, Option.map_some, hprev]
        · rw [CTxMemPool.spends_addUnchecked_of_ne he] at hs
          exact absurd (h.mem_of_spends hs) (hconflict txin hmem)
    · have hold : (pool.addUnchecked hash tx).mapNextTx.lookup o = pool.mapNextTx.lookup o := by
        refine lookup_addInputs_of_ne fun input hmem he => ho ?_
        rw [he]
        exact mem_map_of_mem (fst_mem_of_mem_zipIdx hmem)
      rw [hold, h.next]
      by_cases he : k = hash
      · rw [he, CTxMemPool.spends_addUnchecked_self]
        constructor
        · rintro ⟨t, _, ht, -⟩
          exact absurd (AList.lookup_isSome.mp (by rw [ht]; rfl)) hfresh
        · rintro ⟨txin, hi, rfl⟩
          exact absurd (mem_map_of_mem (mem_of_getElem? hi)) ho
      · rw [CTxMemPool.spends_addUnchecked_of_ne he]

theorem CTxMemPool.Indexed.accept {pool' : CTxMemPool} {policy : Policy} {pindexBest : PIndex}
    {fCheckInputs : Bool} (henv : env.crypto = crypto) (h : pool.Indexed crypto known)
    (hknown : tx ∈ known) (hok : pool.accept env policy db pindexBest tx fCheckInputs = .ok pool') :
    pool'.Indexed crypto known := by
  subst henv
  obtain ⟨htx, rfl⟩ := CTxMemPool.accept_eq_ok hok
  exact h.addUnchecked htx.poolTx hknown htx.fresh htx.noConflict

/-! ### Removing -/

/-- Only the outpoints of `tx` are erased: no other transaction of the pool spends them. -/
theorem CTxMemPool.Indexed.remove (h : pool.Indexed crypto known)
    (hinj : Set.InjOn crypto.txHash known) (hknown : tx ∈ known) :
    (pool.remove crypto tx).Indexed crypto known := by
  by_cases hmem : crypto.txHash tx ∈ pool.mapTx
  · obtain ⟨t, ht⟩ := Option.isSome_iff_exists.mp (AList.lookup_isSome.mpr hmem)
    obtain rfl : t = tx := hinj (h.known _ _ ht) hknown (h.checked _ _ ht).hash
    have hspends : ∀ k i o, (pool.remove crypto t).Spends k i o ↔
        k ≠ crypto.txHash t ∧ pool.Spends k i o := by
      intro k i o
      simp only [CTxMemPool.Spends, CTxMemPool.lookup_remove]
      constructor
      · rintro ⟨u, txin, ⟨hu, hne⟩, hin⟩
        exact ⟨hne, u, txin, hu, hin⟩
      · rintro ⟨hne, u, txin, hu, hin⟩
        exact ⟨u, txin, ⟨hu, hne⟩, hin⟩
    refine ⟨h.checked.remove t, fun k t' hk => h.known k t' (CTxMemPool.lookup_remove.mp hk).1, ?_⟩
    · intro o k i
      have hnext : (pool.remove crypto t).mapNextTx.lookup o =
          if o ∈ t.vin.map (·.prevout) then none else pool.mapNextTx.lookup o := by
        rw [CTxMemPool.remove, if_pos hmem]
        exact lookup_eraseInputs
      rw [hnext, hspends]
      split
      · next ho =>
        -- the entry of an input of the removed transaction was its own
        obtain ⟨txin, hin, rfl⟩ := mem_map.mp ho
        obtain ⟨j, hj⟩ := mem_iff_getElem?.mp hin
        have hown : pool.Spends (crypto.txHash t) j txin.prevout := ⟨t, txin, ht, hj, rfl⟩
        constructor
        · rintro ⟨⟩
        · rintro ⟨hne, hs⟩
          exact absurd (h.spends_unique hs hown).1 hne
      · next ho =>
        rw [h.next]
        constructor
        · intro hs
          refine ⟨?_, hs⟩
          rintro rfl
          obtain ⟨t', txin, ht', hi, rfl⟩ := hs
          obtain rfl : t = t' := Option.some.inj (ht.symm.trans ht')
          exact ho (mem_map_of_mem (mem_of_getElem? hi))
        · exact And.right
  · rwa [CTxMemPool.remove, if_neg hmem]

end Indexed

/-! ## Runs -/

inductive PoolCall
  | accept (env : Env) (policy : Policy) (db : TxDB) (pindexBest : PIndex) (tx : CTransaction)
      (fCheckInputs : Bool)
  | remove (tx : CTransaction)
  | clear

namespace PoolCall

def tx : PoolCall → Option CTransaction
  | accept _ _ _ _ tx _ => some tx
  | remove tx => some tx
  | clear => none

def apply (crypto : Crypto) (pool : CTxMemPool) : PoolCall → CTxMemPool
  | accept env policy db pindexBest tx fCheckInputs =>
    (pool.accept { env with crypto } policy db pindexBest tx fCheckInputs).toOption.getD pool
  | remove tx => pool.remove crypto tx
  | clear => pool.clear

end PoolCall

def CTxMemPool.afterCalls (crypto : Crypto) (calls : List PoolCall) : CTxMemPool :=
  calls.foldl (PoolCall.apply crypto) .empty

theorem CTxMemPool.Indexed.apply (h : pool.Indexed crypto known)
    (hinj : Set.InjOn crypto.txHash known) (call : PoolCall) (hknown : ∀ tx ∈ call.tx, tx ∈ known) :
    (call.apply crypto pool).Indexed crypto known := by
  cases call with
  | accept env policy db pindexBest tx fCheckInputs =>
    rw [PoolCall.apply]
    cases hok : pool.accept { env with crypto } policy db pindexBest tx fCheckInputs with
    | ok pool' => exact CTxMemPool.Indexed.accept (by rfl) h (hknown tx rfl) hok
    | error e => exact h
  | remove tx => exact h.remove hinj (hknown tx rfl)
  | clear => exact CTxMemPool.indexed_empty

theorem CTxMemPool.indexed_afterCalls (hinj : Set.InjOn crypto.txHash known)
    (calls : List PoolCall) (hknown : ∀ call ∈ calls, ∀ tx ∈ call.tx, tx ∈ known) :
    (CTxMemPool.afterCalls crypto calls).Indexed crypto known := by
  refine foldlRecOn (motive := fun p : CTxMemPool => p.Indexed crypto known) calls _ CTxMemPool.indexed_empty ?_
  exact fun _ h call hcall => h.apply hinj call (hknown call hcall)

/-- After every sequence of calls, `mapNextTx` has an entry for an outpoint exactly if its
transaction is in the pool and spends the outpoint with its input; so no two transactions of the
pool spend one outpoint. Txids are different. -/
theorem mapNextTx_iff_spends (crypto : Crypto) (calls : List PoolCall)
    (hinj : Set.InjOn crypto.txHash {tx | ∃ call ∈ calls, call.tx = some tx}) :
    (∀ o hash i, (CTxMemPool.afterCalls crypto calls).mapNextTx.lookup o = some (hash, i) ↔
      (CTxMemPool.afterCalls crypto calls).Spends hash i o) ∧
    (∀ o hash i hash' i', (CTxMemPool.afterCalls crypto calls).Spends hash i o →
      (CTxMemPool.afterCalls crypto calls).Spends hash' i' o → hash = hash' ∧ i = i') := by
  have h := CTxMemPool.indexed_afterCalls hinj calls
    fun call hcall tx htx => ⟨call, hcall, htx⟩
  exact ⟨h.next, fun _ _ _ _ _ => h.spends_unique⟩

/-! ### A pool -/

def conflictingSpend : CTransaction := sampleTx [sampleSpend fundingTx 1] [1]

def sampleCalls : List PoolCall :=
  let policy : Policy := ⟨fun _ => none, fun _ _ => true, fun _ => false⟩
  [.accept Env.sample policy ∅ [] firstSpend false, .accept Env.sample policy ∅ [] secondSpend false,
    .accept Env.sample policy ∅ [] conflictingSpend false, .remove firstSpend]

/-- Calls that add, conflict and remove: only the second spend is left. -/
theorem sampleCalls_index :
    (CTxMemPool.afterCalls Crypto.sample sampleCalls).mapNextTx.keys =
      (secondSpend.vin.map (·.prevout)).reverse ∧
    ∀ o hash i, (CTxMemPool.afterCalls Crypto.sample sampleCalls).mapNextTx.lookup o =
      some (hash, i) ↔ (CTxMemPool.afterCalls Crypto.sample sampleCalls).Spends hash i o := by
  have hmem : ∀ tx, (∃ call ∈ sampleCalls, call.tx = some tx) →
      tx ∈ [firstSpend, secondSpend, conflictingSpend] := by
    rintro tx ⟨call, hcall, htx⟩
    simp only [sampleCalls, mem_cons, not_mem_nil, or_false] at hcall
    rcases hcall with rfl | rfl | rfl | rfl <;> cases htx <;> simp
  have hnodup : ([firstSpend, secondSpend, conflictingSpend].map Crypto.sample.txHash).Nodup := by
    decide +kernel
  refine ⟨by decide +kernel, (mapNextTx_iff_spends Crypto.sample sampleCalls ?_).1⟩
  intro tx htx tx' htx' he
  exact inj_on_of_nodup_map hnodup (hmem tx htx) (hmem tx' htx') he

/-! ## What the memory pool takes in and gives up

`accept` with `fCheckInputs` finds every input of a transaction unspent in the index or in the pool
(`checkPoolInputs_funded`). Without it, all that counts is the transaction itself and the other
transactions of the pool, so a list of transactions that do not conflict is taken in whatever its
order (`mem_resurrectAll`). -/

/-! ## Inputs -/

/-- The output is one of a transaction in the pool, or unspent in the index. -/
def NodeState.Funded (st : NodeState) (o : COutPoint) : Prop :=
  (∃ txPrev, st.mempool.mapTx.lookup o.hash = some txPrev ∧ o.n.toNat < txPrev.vout.length) ∨
    Unspent (index st.txdb) o.slot

section Inputs

variable {inputs : MapPrevTx}

/-- What `FetchInputs` has read for the pool: an entry of the database or a fresh one for a
transaction of the pool. -/
def PoolFetched (env : Env) (db : TxDB) (inputs : MapPrevTx) : Prop :=
  ∀ hash txindex txPrev, inputs hash = some (txindex, txPrev) → db.lookup hash = some txindex ∨
      env.mempool hash = some txPrev ∧ txindex = CTxIndex.new CDiskTxPos.null txPrev.vout.length

theorem PoolFetched.fetchInput {inputs' : MapPrevTx}
    (h : fetchInput env db ∅ false false inputs txin = .ok inputs') (hf : PoolFetched env db inputs) :
    PoolFetched env db inputs' := by
  have hinsert : ∀ prev : CTxIndex × CTransaction, (db.lookup txin.prevout.hash = some prev.1 ∨
      env.mempool txin.prevout.hash = some prev.2 ∧
        prev.1 = CTxIndex.new CDiskTxPos.null prev.2.vout.length) →
      PoolFetched env db (inputs.insert txin.prevout.hash prev) := by
    intro prev hprev hash txindex txPrev hentry
    simp only [MapPrevTx.insert] at hentry
    split at hentry
    · next he =>
      cases hentry
      rw [he]
      exact hprev
    · exact hf _ _ _ hentry
  simp only [NovaCoin.fetchInput] at h
  split at h
  · cases h
    exact hf
  · split at h
    · next txindex he =>
      obtain ⟨txPrev, -, h⟩ := bind_eq_ok.mp h
      cases h
      exact hinsert _ (.inl he)
    · obtain ⟨-, h⟩ := require_bind_eq_ok.mp h
      obtain ⟨txPrev, hread, h⟩ := bind_eq_ok.mp h
      cases h
      exact hinsert _ (.inr ⟨getOr_eq_ok.mp hread, rfl⟩)

variable {tx : CTransaction} {args : ConnectArgs}

theorem PoolFetched.fetchInputs (h : fetchInputs env db ∅ false false tx = .ok inputs) :
    PoolFetched env db inputs := by
  have hnone : PoolFetched env db fun _ => none := fun _ _ _ hn => by cases hn
  simp only [NovaCoin.fetchInputs] at h
  split at h
  · cases h
    exact hnone
  · obtain ⟨inputs₁, h₁, h⟩ := bind_eq_ok.mp h
    obtain ⟨-, -, h⟩ := bind_eq_ok.mp h
    cases h
    exact foldAll_invariant (fun _ _ _ _ hf h => hf.fetchInput h) h₁ hnone

/-- A slot that is null in the second loop of `ConnectInputs` was so before it. -/
theorem null_of_spendInput (hpos : args.posThisTx.isNull = false) {s s' : SpendState}
    {input : CTxIn × Nat} (h : spendInput env args tx s input = .ok s') {n : Nat}
    {txindex : CTxIndex} {txPrev : CTransaction} {p : CDiskTxPos}
    (hfound : s'.inputs hash = some (txindex, txPrev)) (hslot : txindex.vSpent[n]? = some p)
    (hnull : p.isNull) :
    ∃ txindex', s.inputs hash = some (txindex', txPrev) ∧ txindex'.vSpent[n]? = some p := by
  obtain ⟨txindex₀, txPrev₀, _, hfound₀, -, -, -, rfl⟩ := spendInput_eq_ok.mp h
  simp only [MapPrevTx.insert] at hfound
  split at hfound
  · next he =>
    cases hfound
    refine ⟨txindex₀, by rw [he, hfound₀], ?_⟩
    rw [getElem?_set] at hslot
    split at hslot
    · split at hslot
      · cases hslot
        rw [hpos] at hnull
        cases hnull
      · cases hslot
    · exact hslot
  · exact ⟨txindex, hfound, hslot⟩

theorem spendInputs_null (hpos : args.posThisTx.isNull = false) :
    ∀ {l : List (CTxIn × Nat)} {s s' : SpendState}, foldAll (spendInput env args tx) s l = .ok s' →
      ∀ input ∈ l, ∃ txindex txPrev p, s.inputs input.1.prevout.hash = some (txindex, txPrev) ∧
        txindex.vSpent[input.1.prevout.n.toNat]? = some p ∧ p.isNull
  | input :: l, s, s', h, later, hmem => by
    obtain ⟨s₁, h₁, hl⟩ := foldAll_cons_eq_ok.mp h
    rcases mem_cons.mp hmem with rfl | hmem
    · obtain ⟨txindex, txPrev, p, hfound, hslot, hnull, -⟩ := spendInput_eq_ok.mp h₁
      exact ⟨txindex, txPrev, p, hfound, hslot, hnull⟩
    · obtain ⟨txindex, txPrev, p, hfound, hslot, hnull⟩ := spendInputs_null hpos hl later hmem
      obtain ⟨txindex', hfound', hslot'⟩ := null_of_spendInput hpos h₁ hfound hslot hnull
      exact ⟨txindex', txPrev, p, hfound', hslot', hnull⟩

theorem checkPoolInputs_funded {policy : Policy} {pindexBest : PIndex} {st : NodeState}
    (hcb : tx.isCoinBase = false)
    (h : checkPoolInputs (env.withPool st.mempool) policy st.txdb pindexBest tx = .ok ()) :
    ∀ txin ∈ tx.vin, st.Funded txin.prevout := by
  intro txin htxin
  simp only [checkPoolInputs, bind_eq_ok, require_eq_ok, exists_const, mapError_eq_ok] at h
  obtain ⟨inputs, hfetch, -, _, -, _, -, -, -, _, hconnect, -⟩ := h
  obtain ⟨_, -, s, hspend, -⟩ := (connectInputs_iff hcb).mp hconnect
  obtain ⟨nIn, hnIn⟩ := mem_iff_getElem?.mp htxin
  obtain ⟨txindex, txPrev, p, hfound, hslot, hnull⟩ := spendInputs_null (by rfl) hspend (txin, nIn)
    (mem_zipIdx_iff_getElem?.mpr hnIn)
  rcases PoolFetched.fetchInputs hfetch _ _ _ hfound with hentry | ⟨hpool, rfl⟩
  · refine .inr ⟨p, ?_, hnull⟩
    rw [slot_eq_of_entry (e := txindex) hentry]
    exact hslot
  · refine .inl ⟨txPrev, hpool, ?_⟩
    obtain ⟨hlt, -⟩ := List.getElem?_eq_some_iff.mp hslot
    simpa [CTxIndex.new] using hlt

end Inputs

/-! ## Resurrecting -/

section Resurrect

variable {policy : Policy} {pindexBest : PIndex} {pool' : CTxMemPool} {tx : CTransaction}

theorem accept_of_isResurrectable (hres : isResurrectable env policy tx)
    (hcheck : tx.checkTransaction = .ok ()) (hfresh : env.txHash tx ∉ pool.mapTx)
    (hconflict : ∀ txin ∈ tx.vin, txin.prevout ∉ pool.mapNextTx) :
    pool.accept env policy db pindexBest tx false = .ok (pool.addUnchecked (env.txHash tx) tx) :=
  CTxMemPool.accept_eq_ok_iff.mpr ⟨hres, hcheck, hfresh, nofun, hconflict, rfl, rfl⟩

theorem CTxMemPool.resurrect_cases : pool.resurrect env policy db pindexBest tx = pool ∨
    isResurrectable env policy tx ∧ env.txHash tx ∉ pool.mapTx ∧
      pool.accept env policy db pindexBest tx false =
        .ok (pool.resurrect env policy db pindexBest tx) ∧
      pool.resurrect env policy db pindexBest tx = pool.addUnchecked (env.txHash tx) tx := by
  rw [resurrect]
  cases h : pool.accept env policy db pindexBest tx false with
  | error e => exact .inl rfl
  | ok pool' =>
    obtain ⟨hres, -, hfresh, -, -, -, rfl⟩ := CTxMemPool.accept_eq_ok_iff.mp h
    exact .inr ⟨hres, hfresh, rfl, rfl⟩

variable {t : CTransaction}

theorem CTxMemPool.lookup_resurrect (h : pool.mapTx.lookup hash = some t) :
    (pool.resurrect env policy db pindexBest tx).mapTx.lookup hash = some t := by
  rcases pool.resurrect_cases with he | ⟨-, hfresh, -, he⟩
  · rw [he, h]
  · have hne : hash ≠ env.txHash tx := by
      rintro rfl
      exact hfresh (AList.lookup_isSome.mp (by rw [h]; rfl))
    rw [he, CTxMemPool.lookup_addUnchecked, if_neg hne, h]

theorem CTxMemPool.of_lookup_resurrect
    (h : (pool.resurrect env policy db pindexBest tx).mapTx.lookup hash = some t) :
    pool.mapTx.lookup hash = some t ∨ t = tx ∧ isResurrectable env policy tx := by
  rcases pool.resurrect_cases with he | ⟨hres, -, -, he⟩
  · rw [he] at h
    exact .inl h
  · rw [he, CTxMemPool.lookup_addUnchecked] at h
    split at h
    · exact .inr ⟨(Option.some.inj h).symm, hres⟩
    · exact .inl h

theorem CTxMemPool.indexed_resurrect (h : pool.Indexed env.crypto known) (hknown : tx ∈ known) :
    (pool.resurrect env policy db pindexBest tx).Indexed env.crypto known := by
  rcases pool.resurrect_cases with he | ⟨-, -, hok, -⟩
  · rw [he]
    exact h
  · exact h.accept rfl hknown hok

/-- A transaction that nothing in the pool conflicts with is back. -/
theorem CTxMemPool.Indexed.mem_resurrect (h : pool.Indexed env.crypto known)
    (hinj : Set.InjOn env.crypto.txHash known) (hknown : tx ∈ known)
    (hres : isResurrectable env policy tx) (hcheck : tx.checkTransaction = .ok ())
    (hconflict : ∀ hash u, pool.mapTx.lookup hash = some u → ∀ txin ∈ tx.vin,
      txin.prevout ∈ u.vin.map (·.prevout) → u = tx) :
    (pool.resurrect env policy db pindexBest tx).mapTx.lookup (env.txHash tx) = some tx := by
  by_cases hfresh : env.txHash tx ∈ pool.mapTx
  · obtain ⟨t, ht⟩ := Option.isSome_iff_exists.mp (AList.lookup_isSome.mpr hfresh)
    obtain rfl : t = tx := hinj (h.known _ _ ht) hknown (h.checked _ _ ht).hash
    exact CTxMemPool.lookup_resurrect ht
  · have hnone : ∀ txin ∈ tx.vin, txin.prevout ∉ pool.mapNextTx := by
      intro txin hin hmem
      obtain ⟨⟨hash, i⟩, hnext⟩ := Option.isSome_iff_exists.mp (AList.lookup_isSome.mpr hmem)
      obtain ⟨u, txin', hu, hi, hprev⟩ := (h.next _ _ _).mp hnext
      obtain rfl : u = tx := hconflict hash u hu txin hin
        (mem_map.mpr ⟨txin', mem_of_getElem? hi, hprev⟩)
      rw [← (h.checked _ _ hu).hash] at hu
      exact hfresh (AList.lookup_isSome.mp (by rw [Env.txHash, hu]; rfl))
    rw [CTxMemPool.resurrect, accept_of_isResurrectable hres hcheck hfresh hnone]
    exact AList.lookup_insert _

/-! ### A list of transactions -/

theorem CTxMemPool.indexed_resurrectAll (h : pool.Indexed env.crypto known)
    (hknown : ∀ tx ∈ l, tx ∈ known) :
    (l.foldl (·.resurrect env policy db pindexBest) pool).Indexed env.crypto known :=
  foldlRecOn (motive := fun p : CTxMemPool => p.Indexed env.crypto known) l _ h
    fun _ h tx htx => CTxMemPool.indexed_resurrect h (hknown tx htx)

theorem CTxMemPool.lookup_resurrectAll (h : pool.mapTx.lookup hash = some t) :
    (l.foldl (·.resurrect env policy db pindexBest) pool).mapTx.lookup hash = some t :=
  foldlRecOn (motive := fun p : CTxMemPool => p.mapTx.lookup hash = some t) l _ h
    fun _ h _ _ => CTxMemPool.lookup_resurrect h

theorem CTxMemPool.of_lookup_resurrectAll :
    ∀ {l : List CTransaction} {pool : CTxMemPool},
      (l.foldl (·.resurrect env policy db pindexBest) pool).mapTx.lookup hash = some t →
      pool.mapTx.lookup hash = some t ∨ t ∈ l ∧ isResurrectable env policy t
  | [], _, h => .inl h
  | tx :: l, pool, h => by
    rw [foldl_cons] at h
    rcases CTxMemPool.of_lookup_resurrectAll h with h | ⟨hmem, hres⟩
    · rcases CTxMemPool.of_lookup_resurrect h with h | ⟨rfl, hres⟩
      · exact .inl h
      · exact .inr ⟨mem_cons_self, hres⟩
    · exact .inr ⟨mem_cons_of_mem _ hmem, hres⟩

/-- Every transaction of the list that may be taken in is in the pool afterwards, if it conflicts
with none of the others. -/
theorem CTxMemPool.mem_resurrectAll (hinj : Set.InjOn env.crypto.txHash known)
    (hres : isResurrectable env policy tx) (hcheck : tx.checkTransaction = .ok ()) :
    ∀ {l : List CTransaction} {pool : CTxMemPool}, pool.Indexed env.crypto known →
      (∀ t ∈ l, t ∈ known) → tx ∈ l →
      (∀ u, ((∃ hash, pool.mapTx.lookup hash = some u) ∨ u ∈ l ∧ isResurrectable env policy u) →
        ∀ txin ∈ tx.vin, txin.prevout ∈ u.vin.map (·.prevout) → u = tx) →
      (l.foldl (·.resurrect env policy db pindexBest) pool).mapTx.lookup (env.txHash tx) = some tx
  | t :: l, pool, h, hknown, hmem, hconflict => by
    rw [forall_mem_cons] at hknown
    rw [foldl_cons]
    rcases mem_cons.mp hmem with rfl | hmem
    · refine CTxMemPool.lookup_resurrectAll (h.mem_resurrect hinj hknown.1 hres hcheck ?_)
      exact fun hash u hu => hconflict u (.inl ⟨hash, hu⟩)
    · refine CTxMemPool.mem_resurrectAll hinj hres hcheck (CTxMemPool.indexed_resurrect h hknown.1)
        hknown.2 hmem fun u hu => hconflict u ?_
      rcases hu with ⟨hash, hu⟩ | ⟨hu, hures⟩
      · rcases CTxMemPool.of_lookup_resurrect hu with hu | ⟨rfl, hures⟩
        · exact .inl ⟨hash, hu⟩
        · exact .inr ⟨mem_cons_self, hures⟩
      · exact .inr ⟨mem_cons_of_mem _ hu, hures⟩

end Resurrect

/-! ## Deleting -/

theorem CTxMemPool.lookup_removeAll {t : CTransaction} :
    ∀ {l : List CTransaction} {pool : CTxMemPool},
      (l.foldl (·.remove crypto) pool).mapTx.lookup hash = some t ↔
        pool.mapTx.lookup hash = some t ∧ ∀ tx ∈ l, hash ≠ crypto.txHash tx
  | [], _ => by simp
  | tx :: l, pool => by
    rw [foldl_cons, CTxMemPool.lookup_removeAll, CTxMemPool.lookup_remove, forall_mem_cons,
      and_assoc]

theorem CTxMemPool.indexed_removeAll (hinj : Set.InjOn crypto.txHash known)
    (h : pool.Indexed crypto known) (hknown : ∀ tx ∈ l, tx ∈ known) :
    (l.foldl (·.remove crypto) pool).Indexed crypto known :=
  foldlRecOn (motive := fun p : CTxMemPool => p.Indexed crypto known) l _ h fun _ h tx htx => h.remove hinj (hknown tx htx)

end NovaCoin
