import NovaCoin.Properties.Disconnect
import NovaCoin.Properties.OrphanIndex

/-!
# What the wallets are told of

During a `tx` message the pool grows by the received transaction and by orphans (`Swept`). Each of
them is relayed once and is no orphan afterwards. The wallets are told once per transaction too,
but always of the received one: `SyncWithWallets` is called with `tx` where the orphan is meant.
-/

namespace NovaCoin

open List

open AssocMap (mem_of_lookup exists_lookup)

/-! ## The pool of the node -/

/-- What `AcceptToMemoryPool` reads beside the pool. -/
structure Surroundings where
  env : Env
  policy : Policy
  db : TxDB
  pindexBest : PIndex

/-- `AcceptToMemoryPool` of the node: the pool, and the number of calls so far, by which clock and
rate limiter may change. -/
def poolAccept (crypto : Crypto) (around : Nat → Surroundings) : Accept (CTxMemPool × Nat) :=
  fun pool tx =>
    let s := around pool.2
    match pool.1.accept { s.env with crypto } s.policy s.db s.pindexBest tx true with
    | .ok pool' => ((pool', pool.2 + 1), .ok ())
    | .error e => ((pool.1, pool.2 + 1), .error e)

def syncedTxs (events : List TxEvent) : List CTransaction :=
  events.filterMap fun
    | .syncWithWallets tx => some tx
    | _ => none

def relayedTxs (events : List TxEvent) : List (CTransaction × Uint256) :=
  events.filterMap fun
    | .relayTransaction tx hash => some (tx, hash)
    | _ => none

theorem syncedTxs_append (events events' : List TxEvent) :
    syncedTxs (events ++ events') = syncedTxs events ++ syncedTxs events' :=
  filterMap_append

theorem relayedTxs_append (events events' : List TxEvent) :
    relayedTxs (events ++ events') = relayedTxs events ++ relayedTxs events' :=
  filterMap_append

def Added (pool pool' : CTxMemPool) (hash : Uint256) (tx : CTransaction) : Prop :=
  pool.mapTx.lookup hash = none ∧ pool'.mapTx.lookup hash = some tx

variable {hash : Uint256} {fuel : Nat} {pool : CTxMemPool × Nat} {orphans : OrphanTxs}
  {pool₀ : CTxMemPool} {accepted : List CTransaction} {w : TxWork (CTxMemPool × Nat)}

section

variable {crypto : Crypto} {around : Nat → Surroundings} {pool' : CTxMemPool × Nat}

theorem poolAccept_ok {tx : CTransaction} (h : poolAccept crypto around pool tx = (pool', .ok ())) :
    pool.1.mapTx.lookup (crypto.txHash tx) = none ∧ ∀ hash, pool'.1.mapTx.lookup hash =
        if hash = crypto.txHash tx then some tx else pool.1.mapTx.lookup hash := by
  simp only [poolAccept] at h
  split at h
  · next pool'' hok =>
    cases h
    obtain ⟨hacceptable, rfl⟩ := CTxMemPool.accept_eq_ok hok
    exact ⟨AList.lookup_eq_none.mpr hacceptable.fresh, fun hash => CTxMemPool.lookup_addUnchecked⟩
  · cases h

theorem poolAccept_error {tx : CTransaction} {e : Bool × Reject}
    (h : poolAccept crypto around pool tx = (pool', .error e)) : pool'.1 = pool.1 := by
  simp only [poolAccept] at h
  split at h
  · cases h
  · cases h
    rfl

/-! ## The orphans that are accepted -/

/-- After some rounds: the pool has grown by the received transaction and by `accepted`, all
orphans. -/
structure Swept (crypto : Crypto) (orphans : OrphanTxs) (tx : CTransaction) (pool₀ : CTxMemPool)
    (accepted : List CTransaction) (w : TxWork (CTxMemPool × Nat)) : Prop where
  indexed : w.orphans.Indexed crypto
  orphans_eq : w.orphans.mapOrphanTransactions = orphans.mapOrphanTransactions
  orphan : ∀ t ∈ accepted, orphans.mapOrphanTransactions.lookup (crypto.txHash t) = some t
  queue : w.vWorkQueue = (tx :: accepted).map crypto.txHash
  nodup : w.vWorkQueue.Nodup
  fresh : ∀ hash ∈ w.vWorkQueue, pool₀.mapTx.lookup hash = none
  lookup : ∀ hash t, w.pool.1.mapTx.lookup hash = some t ↔
    pool₀.mapTx.lookup hash = some t ∨ (t ∈ tx :: accepted ∧ hash = crypto.txHash t)
  synced : syncedTxs w.events = List.replicate (accepted.length + 1) tx
  relayed : relayedTxs w.events = (tx :: accepted).map fun t => (t, crypto.txHash t)
  erased : ∀ hash ∈ w.vWorkQueue, hash ∈ w.vEraseQueue

variable {tx nullTx : CTransaction}

/-- What is not in the pool has not been accepted, and was not there before. -/
theorem Swept.of_lookup_none (h : Swept crypto orphans tx pool₀ accepted w)
    (hnone : w.pool.1.mapTx.lookup hash = none) :
    hash ∉ w.vWorkQueue ∧ pool₀.mapTx.lookup hash = none := by
  have hnot : ∀ t, ¬ (pool₀.mapTx.lookup hash = some t ∨
      (t ∈ tx :: accepted ∧ hash = crypto.txHash t)) := by
    intro t ht
    rw [← h.lookup, hnone] at ht
    cases ht
  constructor
  · rw [h.queue]
    intro hmem
    obtain ⟨t, ht, heq⟩ := mem_map.mp hmem
    exact hnot t (.inr ⟨ht, heq.symm⟩)
  · by_contra hsome
    obtain ⟨t, ht⟩ := Option.ne_none_iff_exists'.mp hsome
    exact hnot t (.inl ht)

theorem Swept.lookup_accepted (h : Swept crypto orphans tx pool₀ accepted w)
    {orphanTx : CTransaction} (hnone : w.pool.1.mapTx.lookup (crypto.txHash orphanTx) = none)
    (hash : Uint256) (t : CTransaction) :
    (if hash = crypto.txHash orphanTx then some orphanTx else w.pool.1.mapTx.lookup hash) = some t ↔
      pool₀.mapTx.lookup hash = some t ∨
        (t ∈ tx :: (accepted ++ [orphanTx]) ∧ hash = crypto.txHash t) := by
  have hmem : t ∈ tx :: (accepted ++ [orphanTx]) ↔ t ∈ tx :: accepted ∨ t = orphanTx := by
    rw [← cons_append, mem_append, mem_singleton]
  rw [hmem, or_and_right, ← or_assoc, ← h.lookup]
  split
  · next heq =>
    subst heq
    rw [hnone, Option.some.injEq]
    constructor
    · rintro rfl
      exact .inr ⟨rfl, rfl⟩
    · rintro (ht | ⟨rfl, -⟩)
      · cases ht
      · rfl
  · next hne =>
    constructor
    · exact .inl
    · rintro (ht | ⟨rfl, heq⟩)
      · exact ht
      · exact absurd heq hne

variable (around nullTx)

/-- An orphan that is accepted was not in the pool, so it joins the queue once. -/
theorem Swept.visitOrphan (h : Swept crypto orphans tx pool₀ accepted w)
    (hhash : hash ∈ w.orphans.mapOrphanTransactions) :
    ∃ accepted', Swept crypto orphans tx pool₀ accepted'
      (visitOrphan (poolAccept crypto around) nullTx tx w hash) := by
  obtain ⟨orphanTx, hlookup⟩ := exists_lookup hhash
  obtain rfl := h.indexed.keyed hash orphanTx hlookup
  simp only [visitOrphan, OrphanTxs.subscriptTx_of_lookup hlookup]
  rcases haccept : poolAccept crypto around w.pool orphanTx with ⟨pool, ⟨fMissingInputs2, reject⟩ | ⟨⟩⟩
  · -- refused: the pool stays
    have hpool := poolAccept_error haccept
    refine ⟨accepted, { h with lookup := ?_, erased := ?_ }⟩
    · intro hash t
      rw [hpool]
      exact h.lookup hash t
    · intro hash hhash
      simp only
      split
      · exact h.erased hash hhash
      · exact mem_append_left _ (h.erased hash hhash)
  · obtain ⟨hnone, hnew⟩ := poolAccept_ok haccept
    obtain ⟨hnotin, hfresh⟩ := h.of_lookup_none hnone
    refine ⟨accepted ++ [orphanTx], h.indexed, h.orphans_eq, ?_, ?_, ?_, ?_, ?_, ?_, ?_, ?_⟩
    · intro t ht
      rcases mem_append.mp ht with ht | ht
      · exact h.orphan t ht
      · rw [mem_singleton.mp ht, ← h.orphans_eq]
        exact hlookup
    · simp [h.queue]
    · rw [nodup_append_comm]
      exact nodup_cons.mpr ⟨hnotin, h.nodup⟩
    · intro hash hmem
      rcases mem_append.mp hmem with hmem | hmem
      · exact h.fresh hash hmem
      · rw [mem_singleton.mp hmem]
        exact hfresh
    · intro hash t
      rw [hnew]
      exact h.lookup_accepted hnone hash t
    · rw [syncedTxs_append, h.synced, length_append, length_singleton]
      exact replicate_succ'.symm
    · rw [relayedTxs_append, h.relayed, ← cons_append, map_append]
      rfl
    · intro hash hmem
      rcases mem_append.mp hmem with hmem | hmem
      · exact mem_append_left _ (h.erased hash hmem)
      · exact mem_append_right _ hmem

theorem Swept.foldl_visitOrphan (hashes : List Uint256)
    (h : Swept crypto orphans tx pool₀ accepted w)
    (hall : ∀ hash ∈ hashes, hash ∈ orphans.mapOrphanTransactions) :
    ∃ accepted', Swept crypto orphans tx pool₀ accepted'
      (hashes.foldl (NovaCoin.visitOrphan (poolAccept crypto around) nullTx tx) w) := by
  refine foldlRecOn (motive := fun w => ∃ accepted', Swept crypto orphans tx pool₀ accepted' w)
    hashes _ ⟨accepted, h⟩ ?_
  rintro w ⟨_, h⟩ hash hmem
  exact h.visitOrphan around nullTx (h.orphans_eq ▸ hall hash hmem)

theorem Swept.visitPrev (h : Swept crypto orphans tx pool₀ accepted w) (hashPrev : Uint256) :
    ∃ accepted', Swept crypto orphans tx pool₀ accepted'
      (visitPrev (poolAccept crypto around) nullTx tx w hashPrev) := by
  have hsubscript : Swept crypto orphans tx pool₀ accepted
      { w with orphans := w.orphans.subscript hashPrev } :=
    { h with
      indexed := h.indexed.subscript hashPrev
      orphans_eq := (OrphanTxs.mapOrphanTransactions_subscript hashPrev).trans h.orphans_eq }
  refine hsubscript.foldl_visitOrphan around nullTx _ fun hash hhash => ?_
  obtain ⟨t, ht, -⟩ := (hsubscript.indexed.mem_waiting hashPrev hash).mp hhash
  rw [hsubscript.orphans_eq] at ht
  exact mem_of_lookup ht

theorem Swept.length_le (h : Swept crypto orphans tx pool₀ accepted w) :
    w.vWorkQueue.length ≤ orphans.size + 1 := by
  have hnodup := h.nodup
  rw [h.queue] at hnodup
  have hsub : accepted.map crypto.txHash ⊆ orphans.mapOrphanTransactions.keys := by
    intro hash hmem
    obtain ⟨t, ht, rfl⟩ := mem_map.mp hmem
    exact AList.mem_keys.mp (mem_of_lookup (h.orphan t ht))
  have hle := (nodup_cons.mp hnodup).2.subperm hsub |>.length_le
  rw [h.queue, map_cons]
  exact Nat.succ_le_succ hle

theorem Swept.processOrphans (h : Swept crypto orphans tx pool₀ [] w)
    (hfuel : orphans.size + 1 < fuel) :
    ∃ w' accepted, processOrphans (poolAccept crypto around) nullTx tx fuel w = some w' ∧
      Swept crypto orphans tx pool₀ accepted w' := by
  have hround : ∀ (i : Nat) (v : TxWork (CTxMemPool × Nat)) (hashPrev : Uint256),
      (∃ accepted, Swept crypto orphans tx pool₀ accepted v) → v.vWorkQueue[i]? = some hashPrev →
      ∃ accepted, Swept crypto orphans tx pool₀ accepted
        (NovaCoin.visitPrev (poolAccept crypto around) nullTx tx v hashPrev) :=
    fun i v hashPrev ⟨_, hv⟩ _ => hv.visitPrev around nullTx hashPrev
  obtain ⟨w', hw'⟩ := WorkQueue.exists_run (i := 0) hround
    (fun i v ⟨_, hv⟩ => hv.length_le) ⟨[], h⟩ hfuel (Nat.zero_lt_of_lt hfuel)
  obtain ⟨-, ⟨accepted, haccepted⟩, -⟩ := WorkQueue.run_induct hround ⟨[], h⟩ hw'
  exact ⟨w', accepted, hw', haccepted⟩

end

/-! ## Whether an orphan is accepted -/

section

variable {π : Type} (accept : Accept π)

/-- None of the transactions is accepted when they are tried one after the other. -/
def acceptsNone : π → List CTransaction → Bool
  | _, [] => true
  | pool, tx :: txs =>
    match accept pool tx with
    | (_, .ok ()) => false
    | (pool, .error _) => acceptsNone pool txs

/-- The received transaction is not accepted, or none of the orphans that spend from it is. -/
def NoOrphanAccepted (crypto : Crypto) (orphans : OrphanTxs) (msg : TxMessage π) : Prop :=
  match accept msg.pool msg.tx with
  | (_, .error _) => True
  | (pool, .ok ()) => acceptsNone accept pool
      ((orphans.waiting (crypto.txHash msg.tx)).filterMap orphans.mapOrphanTransactions.lookup) = true

variable (nullTx tx : CTransaction)

theorem foldl_visitOrphan_queue : ∀ (hashes : List Uint256) (w : TxWork π),
    (∀ hash ∈ hashes, hash ∈ w.orphans.mapOrphanTransactions) →
    ((hashes.foldl (visitOrphan accept nullTx tx) w).vWorkQueue = w.vWorkQueue ↔
      acceptsNone accept w.pool
        (hashes.filterMap w.orphans.mapOrphanTransactions.lookup))
  | [], w, _ => by simp [acceptsNone]
  | hash :: hashes, w, h => by
    have hhash := h hash (mem_cons_self ..)
    have hrest := fun k hk => h k (mem_cons_of_mem hash hk)
    have horphans := visitOrphan_orphans accept nullTx tx hhash
    have ih := foldl_visitOrphan_queue hashes (visitOrphan accept nullTx tx w hash)
      (by rw [horphans]; exact hrest)
    obtain ⟨orphanTx, hlookup⟩ := exists_lookup hhash
    have hcons : (hash :: hashes).filterMap (w.orphans.mapOrphanTransactions.lookup ·) =
        orphanTx :: hashes.filterMap (w.orphans.mapOrphanTransactions.lookup ·) := by
      rw [filterMap_cons, hlookup]
    rw [foldl_cons, hcons, acceptsNone]
    rcases haccept : accept w.pool orphanTx with ⟨pool, ⟨fMissingInputs2, reject⟩ | ⟨⟩⟩
    · have hvisit : (visitOrphan accept nullTx tx w hash).vWorkQueue = w.vWorkQueue ∧
          (visitOrphan accept nullTx tx w hash).pool = pool := by
        simp only [visitOrphan, OrphanTxs.subscriptTx_of_lookup hlookup, haccept, and_self]
      rwa [hvisit.1, hvisit.2, horphans] at ih
    · have hvisit : (visitOrphan accept nullTx tx w hash).vWorkQueue = w.vWorkQueue ++ [hash] := by
        simp only [visitOrphan, OrphanTxs.subscriptTx_of_lookup hlookup, haccept]
      have hlonger := (vWorkQueue_foldl_visitOrphan accept nullTx tx hashes
        (visitOrphan accept nullTx tx w hash)).length_le
      rw [hvisit, length_append, length_singleton] at hlonger
      constructor
      · intro heq
        rw [heq] at hlonger
        omega
      · intro hfalse
        cases hfalse

variable {accept nullTx tx} {crypto : Crypto}

/-- The queue stays as it is if and only if no orphan of the received transaction is accepted. -/
theorem processOrphans_queue {w w' : TxWork π} (h : w.orphans.Indexed crypto)
    (hqueue : w.vWorkQueue = [hash]) (hrun : processOrphans accept nullTx tx fuel w = some w') :
    w'.vWorkQueue = [hash] ↔ acceptsNone accept w.pool
      ((w.orphans.waiting hash).filterMap w.orphans.mapOrphanTransactions.lookup) := by
  obtain ⟨fuel, rfl⟩ : ∃ n, fuel = n + 1 := by
    cases fuel with
    | zero => cases hrun
    | succ n => exact ⟨n, rfl⟩
  have hfirst : w.vWorkQueue[0]? = some hash := by rw [hqueue]; rfl
  rw [processOrphans, WorkQueue.run, hfirst] at hrun
  replace hrun : WorkQueue.run TxWork.vWorkQueue (visitPrev accept nullTx tx) fuel 1
    (visitPrev accept nullTx tx w hash) = some w' := hrun
  have hpre := vWorkQueue_visitPrev accept nullTx tx w hash
  have hnone : (visitPrev accept nullTx tx w hash).vWorkQueue = [hash] ↔ acceptsNone accept w.pool
        ((w.orphans.waiting hash).filterMap w.orphans.mapOrphanTransactions.lookup) := by
    have hfold := foldl_visitOrphan_queue accept nullTx tx ((w.orphans.subscript hash).waiting hash)
      { w with orphans := w.orphans.subscript hash } fun k hk => by
        obtain ⟨t, ht, -⟩ := ((h.subscript hash).mem_waiting hash k).mp hk
        exact mem_of_lookup ht
    simp only [OrphanTxs.waiting_subscript, OrphanTxs.mapOrphanTransactions_subscript] at hfold
    rw [← hqueue, visitPrev, OrphanTxs.waiting_subscript]
    exact hfold
  rw [← hnone]
  generalize visitPrev accept nullTx tx w hash = v at hrun hpre
  constructor
  · -- the queue only grows
    intro hw'
    have hle := WorkQueue.isPrefix_run (vWorkQueue_visitPrev accept nullTx tx) hrun
    rw [hw'] at hle
    rw [hqueue] at hpre
    exact (hpre.eq_of_length_le hle.length_le).symm
  · intro hv'
    cases fuel with
    | zero => cases hrun
    | succ fuel =>
      have hend : v.vWorkQueue[1]? = none := by rw [hv']; rfl
      rw [WorkQueue.run, hend] at hrun
      cases hrun
      exact hv'

end

theorem notMem_foldl_eraseOrphanTx : ∀ (queue : List Uint256) {orphans : OrphanTxs},
    hash ∈ queue ∨ hash ∉ orphans.mapOrphanTransactions →
      hash ∉ (queue.foldl OrphanTxs.eraseOrphanTx orphans).mapOrphanTransactions
  | [], orphans, h => by simpa using h
  | k :: queue, orphans, h => by
    refine notMem_foldl_eraseOrphanTx queue ?_
    by_cases hq : hash ∈ queue
    · exact .inl hq
    · refine .inr ?_
      unfold OrphanTxs.eraseOrphanTx
      split
      · next hnone =>
        rcases h with h | h
        · rcases mem_cons.mp h with rfl | h
          · exact AList.lookup_eq_none.mp hnone
          · exact absurd h hq
        · exact h
      · rw [AList.mem_erase]
        rintro ⟨hne, hmem⟩
        rcases h with h | h
        · rcases mem_cons.mp h with rfl | h
          · exact hne rfl
          · exact hq h
        · exact h hmem

/-! ## The message -/

section

variable (crypto : Crypto) (around : Nat → Surroundings)

variable {tx : CTransaction}

theorem Swept.start (h : orphans.Indexed crypto) {msg : TxMessage (CTxMemPool × Nat)}
    (haccept : poolAccept crypto around msg.pool msg.tx = (pool, .ok ())) :
    Swept crypto orphans msg.tx msg.pool.1 [] (acceptedWork crypto orphans msg pool) := by
  obtain ⟨hnone, hnew⟩ := poolAccept_ok haccept
  refine ⟨h, rfl, nofun, rfl, nodup_singleton _, ?_, ?_, rfl, rfl, fun _ hm => hm⟩
  · intro hash hmem
    rw [mem_singleton.mp hmem]
    exact hnone
  · intro hash t
    show pool.1.mapTx.lookup hash = some t ↔ _
    rw [hnew, mem_singleton]
    split
    · next heq =>
      subst heq
      constructor
      · rintro ⟨⟩
        exact .inr ⟨rfl, rfl⟩
      · rintro (ht | ⟨rfl, -⟩)
        · rw [hnone] at ht
          cases ht
        · rfl
    · next hne =>
      constructor
      · exact .inl
      · rintro (ht | ⟨rfl, heq⟩)
        · exact ht
        · exact absurd heq hne

section

variable {crypto : Crypto} (h : Swept crypto orphans tx pool₀ accepted w) {t : CTransaction}
include h

theorem Swept.added_iff :
    Added pool₀ w.pool.1 hash t ↔ t ∈ tx :: accepted ∧ hash = crypto.txHash t := by
  rw [Added, h.lookup]
  constructor
  · rintro ⟨hnone, hsome | ht⟩
    · rw [hnone] at hsome
      cases hsome
    · exact ht
  · rintro ⟨ht, rfl⟩
    refine ⟨h.fresh _ ?_, .inr ⟨ht, rfl⟩⟩
    rw [h.queue]
    exact mem_map_of_mem ht

theorem Swept.relayed_once (ht : t ∈ tx :: accepted) :
    (relayedTxs w.events).count (t, crypto.txHash t) = 1 := by
  have hnodup := h.nodup
  rw [h.queue] at hnodup
  rw [h.relayed]
  refine count_eq_one_of_mem ?_ (mem_map.mpr ⟨t, ht, rfl⟩)
  refine List.Nodup.map (fun a b hab => congrArg Prod.fst hab) ?_
  exact hnodup.of_map _

/-- All of them are synchronized once if and only if there are no orphans among them. -/
theorem Swept.synced_once_iff :
    (∀ t ∈ tx :: accepted, (syncedTxs w.events).count t = 1) ↔ accepted = [] := by
  rw [h.synced]
  constructor
  · intro hall
    have htx := hall tx (mem_cons_self ..)
    rw [count_replicate_self] at htx
    exact length_eq_zero_iff.mp (by omega)
  · rintro rfl t ht
    rw [mem_singleton.mp ht]
    exact count_replicate_self

end

/-- For every reachable state of the orphans, every pool and message: each transaction that the
message adds to the pool is relayed once and no orphan afterwards; all of them are passed to
`SyncWithWallets` once if and only if no orphan is accepted. -/
theorem processTx_syncs {ρ : Type} (accept₀ : Accept ρ) (past : List (TxMessage ρ))
    (orphans : OrphanTxs) (hpast : processTxs crypto accept₀ .empty past = some orphans)
    (msg : TxMessage (CTxMemPool × Nat)) (hfuel : orphans.size + 1 < msg.fuel) :
    ∃ w, processTx crypto (poolAccept crypto around) orphans msg = some w ∧
      (∀ hash t, Added msg.pool.1 w.pool.1 hash t →
        (relayedTxs w.events).count (t, hash) = 1 ∧ hash ∉ w.orphans.mapOrphanTransactions) ∧
      ((∀ hash t, Added msg.pool.1 w.pool.1 hash t →
        (syncedTxs w.events).count t = 1 ∧ (relayedTxs w.events).count (t, hash) = 1 ∧
          hash ∉ w.orphans.mapOrphanTransactions) ↔
        NoOrphanAccepted (poolAccept crypto around) crypto orphans msg) := by
  obtain ⟨hindexed, -⟩ := processTxs_indexed past hpast
  unfold processTx NoOrphanAccepted
  rcases haccept : poolAccept crypto around msg.pool msg.tx with ⟨pool, ⟨fMissingInputs, reject⟩ | ⟨⟩⟩
  · -- not accepted: the pool does not change
    have hpool := poolAccept_error haccept
    have hnone : ∀ hash t, ¬ Added msg.pool.1 pool.1 hash t := by
      rintro hash t ⟨hnone, hsome⟩
      rw [hpool, hnone] at hsome
      cases hsome
    exact ⟨_, rfl, fun hash t h => absurd h (hnone hash t),
      fun _ => trivial, fun _ hash t h => absurd h (hnone hash t)⟩
  · have hstart := Swept.start crypto around hindexed haccept
    obtain ⟨w, accepted, hrun, hw⟩ := hstart.processOrphans around msg.nullTx hfuel
    have hqueue : w.vWorkQueue = [crypto.txHash msg.tx] ↔ acceptsNone (poolAccept crypto around) pool
        ((orphans.waiting (crypto.txHash msg.tx)).filterMap orphans.mapOrphanTransactions.lookup) =
          true :=
      processOrphans_queue hindexed rfl hrun
    simp only [Option.bind_eq_bind, hrun, Option.bind_some]
    have heffects : ∀ hash t, Added msg.pool.1 w.pool.1 hash t →
        (relayedTxs w.events).count (t, hash) = 1 ∧
          hash ∉ (w.vEraseQueue.foldl OrphanTxs.eraseOrphanTx w.orphans).mapOrphanTransactions := by
      intro hash t hadded
      obtain ⟨ht, rfl⟩ := hw.added_iff.mp hadded
      refine ⟨hw.relayed_once ht, notMem_foldl_eraseOrphanTx _ (.inl (hw.erased _ ?_))⟩
      rw [hw.queue]
      exact mem_map_of_mem ht
    refine ⟨_, rfl, heffects, ?_⟩
    have hnone : accepted = [] ↔ w.vWorkQueue = [crypto.txHash msg.tx] := by
      rw [hw.queue]
      simp
    rw [← hqueue, ← hnone, ← hw.synced_once_iff]
    constructor
    · intro hall t ht
      exact (hall _ t (hw.added_iff.mpr ⟨ht, rfl⟩)).1
    · intro hsynced hash t hadded
      exact ⟨hsynced t (hw.added_iff.mp hadded).1, heffects hash t hadded⟩

end

def walletCoins : CTransaction := sampleTx [⟨⟨7, 0⟩, [], 0xffffffff⟩] [COIN]

def walletSurroundings : Surroundings where
  env := { Env.sample with readTx := fun _ => some walletCoins }
  policy := ⟨fun _ => none, fun _ _ => true, fun _ => false⟩
  db := Finmap.singleton (Crypto.sample.txHash walletCoins) (CTxIndex.new ⟨1, 100, 181⟩ 1)
  pindexBest := [sampleIndex 0 8]

def receivedTx : CTransaction := sampleTx [sampleSpend walletCoins 0] [COIN - CENT]

def earlyOrphan : CTransaction := sampleTx [sampleSpend receivedTx 0] [COIN - 2 * CENT]

def waitingOrphan : CTransaction :=
  sampleTx [sampleSpend receivedTx 0, ⟨⟨9, 0⟩, [], 0xffffffff⟩] [COIN - 2 * CENT]

def walletMessage (tx : CTransaction) : TxMessage (CTxMemPool × Nat) :=
  ⟨tx, (.empty, 0), fun _ => 0, ⟨1, 0, [], [], 0⟩, 4⟩

def walletAccept : Accept (CTxMemPool × Nat) :=
  poolAccept Crypto.sample fun _ => walletSurroundings

/-- An orphan that goes on waiting. -/
theorem waitingOrphan_syncs : ∃ orphans w,
    processTxs Crypto.sample walletAccept .empty [walletMessage waitingOrphan] = some orphans ∧
    processTx Crypto.sample walletAccept orphans (walletMessage receivedTx) = some w ∧
    Added .empty w.pool.1 (Crypto.sample.txHash receivedTx) receivedTx ∧
    (syncedTxs w.events).count receivedTx = 1 := by
  obtain ⟨orphans, horphans, hfuel, ⟨w, hw, hadded⟩, hnone⟩ : ∃ orphans,
      processTxs Crypto.sample walletAccept .empty [walletMessage waitingOrphan] = some orphans ∧
      orphans.size + 1 < 4 ∧
      (∃ w, processTx Crypto.sample walletAccept orphans (walletMessage receivedTx) = some w ∧
        w.pool.1.mapTx.lookup (Crypto.sample.txHash receivedTx) = some receivedTx) ∧
      acceptsNone walletAccept (walletAccept (.empty, 0) receivedTx).1
        ((orphans.waiting (Crypto.sample.txHash receivedTx)).filterMap
          orphans.mapOrphanTransactions.lookup) := by
    decide +kernel
  obtain ⟨w', hw', -, heffects⟩ := processTx_syncs Crypto.sample (fun _ => walletSurroundings)
    walletAccept _ orphans horphans (walletMessage receivedTx) hfuel
  cases hw.symm.trans hw'
  have hadded : Added .empty w.pool.1 (Crypto.sample.txHash receivedTx) receivedTx := ⟨rfl, hadded⟩
  refine ⟨orphans, w, horphans, hw, hadded, (heffects.mpr ?_ _ _ hadded).1⟩
  unfold NoOrphanAccepted
  split
  · trivial
  · next heq =>
    rw [show walletAccept (.empty, 0) receivedTx = _ from heq] at hnone
    exact hnone

/-- The orphan is accepted after the received transaction, of which the wallets are told twice. -/
theorem earlyOrphan_not_synced : ∃ orphans w,
    processTxs Crypto.sample walletAccept .empty [walletMessage earlyOrphan] = some orphans ∧
    processTx Crypto.sample walletAccept orphans (walletMessage receivedTx) = some w ∧
    Added .empty w.pool.1 (Crypto.sample.txHash earlyOrphan) earlyOrphan ∧
    (syncedTxs w.events).count earlyOrphan = 0 ∧ (syncedTxs w.events).count receivedTx = 2 := by
  refine ⟨Option.get _ (by decide +kernel), Option.get _ (by decide +kernel), (Option.some_get _).symm,
    (Option.some_get _).symm, ⟨rfl, ?_⟩, ?_⟩
  · decide +kernel
  · decide +kernel

end NovaCoin
