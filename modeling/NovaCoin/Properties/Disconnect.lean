import NovaCoin.Spec.Block
import NovaCoin.Spec.Run

/-!
# DisconnectBlock undoes ConnectBlock

Connecting goes through a queue that is written key by key, disconnecting through the index
itself, backwards. What remains is the index before the block, without the transactions of the block.
The one thing that may differ is how a null pointer is written: `IsNull` looks at `nFile` alone,
`SetNull` writes all three fields.
-/

namespace NovaCoin

open Guard SpentIndex List

def eraseAll (db : TxDB) (hashes : List Uint256) : TxDB := hashes.foldl (fun db h => db.erase h) db

theorem index_eraseAll (hashes : List Uint256) (db : TxDB) :
    index (eraseAll db hashes) = fun h => if h ∈ hashes then none else index db h := by
  induction hashes generalizing db with
  | nil =>
    funext h
    simp [eraseAll]
  | cons hash hashes ih =>
    funext h
    have hstep : index (eraseAll db (hash :: hashes)) = index (eraseAll (db.erase hash) hashes) := rfl
    rw [hstep, ih, index_erase]
    by_cases h₁ : h ∈ hashes
    · simp [h₁]
    · by_cases h₂ : h = hash <;> simp [h₁, h₂]

theorem items_keys (crypto : Crypto) (pindex : CBlockIndex) (b : CBlock) :
    (b.items crypto pindex).map (·.key) = b.vtx.map crypto.txHash :=
  blockItems_keys _ _

/-- After a successful `ConnectBlock`, `DisconnectBlock` succeeds and leaves the index as it was
without the transactions of the block; exactly, if null pointers were those of `SetNull`. -/
theorem disconnectBlock_connectBlock (env : Env) (db db' : TxDB) (pindex pindex' : CBlockIndex)
    (pprev : PIndex) (b : CBlock)
    (h : connectBlock env db pindex pprev b false = .ok (db', pindex')) :
    ∃ db'', disconnectBlock env.crypto db' b = .ok db'' ∧
      (∀ tx ∈ b.vtx, db''.lookup (env.txHash tx) = none) ∧
      (∀ hash, hash ∉ b.vtx.map env.txHash →
        (db''.lookup hash).map Entry.normalize = (db.lookup hash).map Entry.normalize) ∧
      (NullsCanonical (index db) → db'' = eraseAll db (b.vtx.map env.txHash)) ∧
      (NullsCanonical (index db) → (∀ tx ∈ b.vtx, db.lookup (env.txHash tx) = none) →
        db'' = db) := by
  obtain ⟨hf, hc, hi⟩ := connectBlock_index h
  obtain ⟨hd, hreset⟩ := disconnectAll_connectAll hc hf
  rw [← hi] at hd
  obtain ⟨db'', h''⟩ := exists_disconnectBlock pindex hd
  have hi'' := (disconnectBlock_eq_ok pindex h'').2
  rw [hi] at hi''
  have hkeys := items_keys env.crypto pindex b
  have hgone : ∀ hash ∈ b.vtx.map env.txHash, index db'' hash = none := by
    intro hash hm
    rw [hi'', hreset, hkeys]
    exact if_pos hm
  have hexact : NullsCanonical (index db) → ∀ hash, hash ∉ b.vtx.map env.txHash →
      index db'' hash = index db hash := by
    intro hn hash hm
    rw [hi'']
    exact hn.disconnectAll_connectAll hc hf (by rw [hkeys]; exact hm)
  refine ⟨db'', h'', ?_, ?_, ?_, ?_⟩
  · exact fun tx htx => hgone _ (mem_map_of_mem htx)
  · intro hash hm
    have hnorm := normalize_disconnectAll_connectAll hc hf (by rw [hkeys]; exact hm)
    rw [← hi''] at hnorm
    exact hnorm
  · intro hn
    refine index_injective ?_
    rw [index_eraseAll]
    funext hash
    split
    · next hm => exact hgone hash hm
    · next hm => exact hexact hn hash hm
  · intro hn hnew
    refine index_injective ?_
    funext hash
    by_cases hm : hash ∈ b.vtx.map env.txHash
    · obtain ⟨tx, htx, rfl⟩ := mem_map.mp hm
      rw [hgone _ hm]
      exact (hnew tx htx).symm
    · exact hexact hn hash hm

/-! ## A block with spends inside -/

def sampleTx (vin : List CTxIn) (values : List Int64) : CTransaction :=
  ⟨1, 1599999000, vin, values.map fun v => ⟨v, [0x51]⟩, 0⟩

def sampleSpend (tx : CTransaction) (n : UInt32) : CTxIn :=
  ⟨⟨Crypto.sample.txHash tx, n⟩, [], 0xffffffff⟩

def sampleCoinbase : CTransaction := sampleTx [⟨COutPoint.null, [1, 2], 0xffffffff⟩] [5]

def sampleBlock (vtx : List CTransaction) : CBlock :=
  let b : CBlock := ⟨6, 0, 0, 1599999999, 0x1e0fffff, 0, vtx, []⟩
  { b with hashMerkleRoot := buildMerkleTree Crypto.sample b }

def sampleIndex (nHeight : Int) (nBlockPos : UInt32) : CBlockIndex :=
  ⟨1, 1, nBlockPos, 2, nHeight, 0, 0, false, 1599999999, 0x1e0fffff⟩

def sampleDisk (blocks : List (CBlockIndex × CBlock)) (pos : CDiskTxPos) : Option CTransaction :=
  (blocks.flatMap fun p => p.2.stored p.1).lookup pos

def fundingTx : CTransaction := sampleTx [⟨⟨7, 0⟩, [], 0xffffffff⟩] [30, 12]

def fundingDb : TxDB :=
  Finmap.singleton (Crypto.sample.txHash fundingTx) (CTxIndex.new ⟨1, 100, 181⟩ 2)

def firstSpend : CTransaction := sampleTx [sampleSpend fundingTx 0, sampleSpend fundingTx 1] [20, 20]

def secondSpend : CTransaction :=
  sampleTx [sampleSpend firstSpend 0, sampleSpend firstSpend 1] [39]

def spendingBlock : CBlock := sampleBlock [sampleCoinbase, firstSpend, secondSpend]

def spendingEnv : Env :=
  { Env.sample with
    readTx := fun pos => if pos = ⟨1, 100, 181⟩ then some fundingTx
      else sampleDisk [(sampleIndex 1 500, spendingBlock)] pos }

theorem exists_connect_spendingBlock : ∃ r, connectBlock spendingEnv fundingDb (sampleIndex 1 500) []
    spendingBlock false = .ok r := by
  decide +kernel

/-- A block that spends twice is undone to the index it was connected to. -/
theorem spendingBlock_disconnects : ∃ db' pindex', connectBlock spendingEnv fundingDb
    (sampleIndex 1 500) [] spendingBlock false = .ok (db', pindex') ∧
    disconnectBlock Crypto.sample db' spendingBlock = .ok fundingDb := by
  obtain ⟨⟨db', pindex'⟩, h⟩ := exists_connect_spendingBlock
  obtain ⟨db'', h'', -, -, -, hsame⟩ := disconnectBlock_connectBlock spendingEnv fundingDb db'
    (sampleIndex 1 500) pindex' [] spendingBlock h
  have hcanonical : NullsCanonical (index fundingDb) := by
    intro hash
    by_cases hk : hash = Crypto.sample.txHash fundingTx
    · rw [hk, index, fundingDb, Finmap.lookup_singleton_eq]
      rfl
    · have hnone : index fundingDb hash = none := by
        rw [index, Finmap.lookup_eq_none, fundingDb, Finmap.mem_singleton]
        exact hk
      rw [hnone]
      rfl
  rw [hsame hcanonical (by decide +kernel)] at h''
  exact ⟨db', pindex', h, h''⟩

/-- An entry whose first pointer is null by `nFile` alone. -/
def oddNullDb : TxDB :=
  Finmap.singleton (Crypto.sample.txHash fundingTx)
    ⟨⟨1, 100, 181⟩, [⟨0xffffffff, 7, 7⟩, CDiskTxPos.null]⟩

/-- The output is spent and its pointer set to null again, with other positions than before. -/
theorem oddNull_not_restored : ∃ r, connectBlock spendingEnv oddNullDb (sampleIndex 1 500) []
    spendingBlock false = .ok r ∧ ∃ db'', disconnectBlock Crypto.sample r.1 spendingBlock = .ok db'' ∧
      (∀ tx ∈ spendingBlock.vtx, oddNullDb.lookup (Crypto.sample.txHash tx) = none) ∧
      db'' ≠ oddNullDb := by
  decide +kernel

/-! ## No double spend

In an index that was reached by connecting and disconnecting blocks, a spent pointer tells which
connected transaction spends an output. A transaction may overwrite one of the same hash that is
completely spent, so this is about the transactions since the last one of that hash. -/

/-- The connected transactions that are newer than every one with this hash, the newest first. -/
def Chain.since (crypto : Crypto) (chain : Chain) (hash : Uint256) :
    List (CDiskTxPos × CTransaction) :=
  chain.txs.takeWhile fun t => crypto.txHash t.2 != hash

theorem since_history (crypto : Crypto) (chain : Chain) (hash : Uint256) :
    SpentIndex.since hash (chain.history crypto) =
      (chain.since crypto hash).map fun t => t.2.item crypto t.1 := by
  unfold Chain.since Chain.history
  induction chain.txs with
  | nil => rfl
  | cons t txs ih =>
    rw [map_cons, SpentIndex.since, CTransaction.item_key]
    by_cases hk : crypto.txHash t.2 = hash
    · simp [hk]
    · rw [ih]
      simp [hk]

theorem flatMap_item_spends (crypto : Crypto) (txs : List (CDiskTxPos × CTransaction)) :
    (txs.map fun t => t.2.item crypto t.1).flatMap (·.spends) =
      (txs.flatMap fun t => t.2.spends).map COutPoint.slot := by
  rw [flatMap_map, map_flatMap]
  rfl

theorem mem_item_spends {crypto : Crypto} {tx : CTransaction} {pos : CDiskTxPos} {o : COutPoint} :
    o.slot ∈ (tx.item crypto pos).spends ↔ o ∈ tx.spends :=
  mem_map_of_injective COutPoint.slot_injective

/-- In every reachable state, a spent pointer is set exactly if an input connected since the last
transaction of the hash names the output, and points to that input's transaction. Two connected
inputs name one outpoint only if a transaction of its hash was connected between them. -/
theorem pointers_of_reachable (crypto : Crypto) (base : PIndex) (db : TxDB) (chain : Chain)
    (h : Reachable crypto base db chain) :
    (∀ (o : COutPoint) (e : CTxIndex) (p : CDiskTxPos), db.lookup o.hash = some e →
      e.vSpent[o.n.toNat]? = some p →
      (p.isNull = false ↔ ((chain.since crypto o.hash).flatMap fun t => t.2.spends).count o = 1) ∧
      (p.isNull = false → ∃ t ∈ chain.since crypto o.hash, o ∈ t.2.spends ∧ p = t.1)) ∧
    (∀ newer u between v older, chain.txs = newer ++ u :: (between ++ v :: older) →
      ∀ o, o ∈ u.2.spends → o ∈ v.2.spends → ∃ t ∈ between, crypto.txHash t.2 = o.hash) ∧
    (∀ t ∈ chain.txs, t.2.spends.Nodup) := by
  have ha := h.agrees
  refine ⟨?_, ?_, ?_⟩
  · intro o e p he hp
    have hset := ha.pointer_set_iff he hp
    rw [since_history, flatMap_item_spends] at hset
    constructor
    · rw [← count_map_of_injective _ _ COutPoint.slot_injective]
      exact hset
    · intro hn
      obtain ⟨u, hu, hspends, hpos⟩ := ha.pointer_pos he hp hn
      rw [since_history] at hu
      obtain ⟨t, ht, rfl⟩ := mem_map.mp hu
      exact ⟨t, ht, mem_item_spends.mp hspends, hpos⟩
  · intro newer u between v older htxs o hu hv
    have hvalid := ha.valid
    rw [Chain.history, htxs] at hvalid
    simp only [map_append, map_cons] at hvalid
    obtain ⟨t, ht, hk⟩ := hvalid.key_between (mem_item_spends.mpr hu) (mem_item_spends.mpr hv)
    obtain ⟨t', ht', rfl⟩ := mem_map.mp ht
    exact ⟨t', ht', hk⟩
  · intro t ht
    obtain ⟨newer, older, htxs⟩ := append_of_mem ht
    have hvalid := ha.valid
    rw [Chain.history, htxs] at hvalid
    simp only [map_append, map_cons] at hvalid
    exact List.Nodup.of_map _ hvalid.of_append.2.1.nodup

/-- What can be spent depends on the connected blocks and where they are stored alone, not on the
reorganizations before. -/
theorem unspent_of_chain (crypto : Crypto) (base : PIndex) (db db' : TxDB) (chain : Chain)
    (h : Reachable crypto base db chain) (h' : Reachable crypto base db' chain) :
    (∀ o : COutPoint, Unspent (index db) o.slot ↔ Unspent (index db') o.slot) ∧
      ∀ hash e e', db.lookup hash = some e → db'.lookup hash = some e' → e = e' := by
  refine ⟨fun o => h.agrees.unspent_iff.trans h'.agrees.unspent_iff.symm, ?_⟩
  intro hash e e' he he'
  exact Option.some.inj ((h.agrees.entry_eq he).symm.trans (h'.agrees.entry_eq he'))

/-! ## A coinbase that is repeated -/

/-- A chain on the test network: a coinbase at height 1, nine more blocks, one that spends it, and
one that repeats it. -/
def numberedCoinbase (n : UInt8) : CTransaction :=
  sampleTx [⟨COutPoint.null, [n, 2], 0xffffffff⟩] [5]

def coinbaseSpend : CTransaction := sampleTx [sampleSpend (numberedCoinbase 1) 0] [4]

def repeatingBlocks : Chain :=
  (sampleIndex 12 12000, sampleBlock [numberedCoinbase 1]) ::
  (sampleIndex 11 11000, sampleBlock [numberedCoinbase 11, coinbaseSpend]) ::
  [10, 9, 8, 7, 6, 5, 4, 3, 2, 1].map fun n : UInt32 =>
    (sampleIndex n.toNat (1000 * n), sampleBlock [numberedCoinbase n.toUInt8])

def repeatingEnv : Env := { Env.sample with readTx := sampleDisk repeatingBlocks }

def firstCoinbaseOut : COutPoint := ⟨Crypto.sample.txHash (numberedCoinbase 1), 0⟩

/-- After the block that spends it, the pointer of the coinbase is the spending transaction. -/
theorem coinbaseSpend_pointer : ∃ db chain e p, Reachable Crypto.sample [sampleIndex 0 8] db chain ∧
    db.lookup firstCoinbaseOut.hash = some e ∧ e.vSpent[firstCoinbaseOut.n.toNat]? = some p ∧
    ∃ t ∈ chain.since Crypto.sample firstCoinbaseOut.hash, firstCoinbaseOut ∈ t.2.spends ∧
      p = t.1 := by
  obtain ⟨⟨db, chain⟩, hrun, e, he, p, hn, hnull⟩ :
      ∃ r, connectBlocks repeatingEnv [sampleIndex 0 8] repeatingBlocks.tail = .ok r ∧
        ∃ e, r.1.lookup firstCoinbaseOut.hash = some e ∧
          ∃ p, e.vSpent[firstCoinbaseOut.n.toNat]? = some p ∧ p.isNull = false := by
    decide +kernel
  have hr : Reachable Crypto.sample [sampleIndex 0 8] db chain :=
    reachable_of_connectBlocks hrun (by decide)
  have hfacts := (pointers_of_reachable Crypto.sample [sampleIndex 0 8] db chain hr).1
    firstCoinbaseOut e p he hn
  exact ⟨db, chain, e, p, hr, he, hn, hfacts.2 hnull⟩

/-- When the coinbase has been repeated, its pointer is null again, although a connected transaction
spends it; no two transactions have one hash. -/
theorem repeatedCoinbase_spent_again : ∃ db chain e p,
    Reachable Crypto.sample [sampleIndex 0 8] db chain ∧
    (∀ t ∈ chain.txs, ∀ u ∈ chain.txs,
      Crypto.sample.txHash t.2 = Crypto.sample.txHash u.2 → t.2 = u.2) ∧
    db.lookup firstCoinbaseOut.hash = some e ∧ e.vSpent[firstCoinbaseOut.n.toNat]? = some p ∧
    p.isNull = true ∧ (chain.txs.flatMap fun t => t.2.spends).count firstCoinbaseOut = 1 := by
  obtain ⟨⟨db, chain⟩, hrun, hinj, e, he, p, hn, hfacts⟩ :
      ∃ r, connectBlocks repeatingEnv [sampleIndex 0 8] repeatingBlocks = .ok r ∧
        (∀ t ∈ r.2.txs, ∀ u ∈ r.2.txs,
          Crypto.sample.txHash t.2 = Crypto.sample.txHash u.2 → t.2 = u.2) ∧
        ∃ e, r.1.lookup firstCoinbaseOut.hash = some e ∧
          ∃ p, e.vSpent[firstCoinbaseOut.n.toNat]? = some p ∧ p.isNull = true ∧
            (r.2.txs.flatMap fun t => t.2.spends).count firstCoinbaseOut = 1 := by
    decide +kernel
  exact ⟨db, chain, e, p, reachable_of_connectBlocks hrun (by decide), hinj, he, hn, hfacts⟩

/-- The block that repeats the coinbase is connected and taken off again. -/
theorem repeatingBlocks_unspent : ∃ db db' chain, Reachable Crypto.sample [sampleIndex 0 8] db chain ∧
    Reachable Crypto.sample [sampleIndex 0 8] db' chain ∧
    db ≠ db' ∧ ∀ o : COutPoint, Unspent (index db) o.slot ↔ Unspent (index db') o.slot := by
  obtain ⟨⟨db, chain⟩, hrun, r, hconnect, db', hdisconnect, hne⟩ :
      ∃ r, connectBlocks repeatingEnv [sampleIndex 0 8] repeatingBlocks.tail = .ok r ∧
        ∃ r', connectBlock repeatingEnv r.1 (sampleIndex 12 12000) (r.2.pindex [sampleIndex 0 8])
          (sampleBlock [numberedCoinbase 1]) false = .ok r' ∧
        ∃ db', disconnectBlock Crypto.sample r'.1 (sampleBlock [numberedCoinbase 1]) = .ok db' ∧
          r.1 ≠ db' := by
    decide +kernel
  have h := reachable_of_connectBlocks hrun (by decide)
  have h' := (h.connect rfl (by decide) hconnect).disconnect hdisconnect
  exact ⟨db, db', chain, h, h', hne, (unspent_of_chain _ _ _ _ _ h h').1⟩

end NovaCoin
