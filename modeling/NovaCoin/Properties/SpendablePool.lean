import NovaCoin.Properties.Disconnect
import NovaCoin.Properties.Mempool

/-!
# The memory pool and the chain

Two things make inputs of the pool unspendable. A block may confirm a transaction that conflicts with
one of the pool: only the transactions of the block itself are removed. And a reorganization may take
a transaction off the chain that cannot go back to the pool, while its descendants can.
-/

namespace NovaCoin

open Guard SpentIndex List Option

/-- Every input of the pool refers to an output of another transaction of the pool, or to an unspent
one of the index. -/
def NodeState.Spendable (st : NodeState) : Prop :=
  ∀ hash tx, st.mempool.mapTx.lookup hash = some tx → ∀ txin ∈ tx.vin,
    (∃ txPrev, txin.prevout.hash ≠ hash ∧ st.mempool.mapTx.lookup txin.prevout.hash = some txPrev ∧
      txin.prevout.n.toNat < txPrev.vout.length) ∨
    ∃ txindex pos, st.txdb.lookup txin.prevout.hash = some txindex ∧
      txindex.vSpent[txin.prevout.n.toNat]? = some pos ∧ pos.isNull = true

/-! ## The condition -/

/-- What may be in the pool before a reorganization deletes from it: what was there or is
resurrected. -/
def poolCandidates (env : Env) (policy : Policy) (pool : CTxMemPool) (vDisconnect : Chain) :
    List CTransaction :=
  pool.txs ++ (vResurrect vDisconnect).filter (isResurrectable env policy)

variable {pool : CTxMemPool} {crypto : Crypto} {tx : CTransaction} {base pindexBest : PIndex}
  {known : Set CTransaction} {env : Env} {policy : Policy} {st st' : NodeState}
  {vConnect : List (CBlockIndex × CBlock)}

theorem mem_poolCandidates_iff {vDisconnect : Chain} :
    tx ∈ poolCandidates env policy pool vDisconnect ↔
      (∃ hash, pool.mapTx.lookup hash = some tx) ∨
        tx ∈ vResurrect vDisconnect ∧ isResurrectable env policy tx := by
  rw [poolCandidates, mem_append, CTxMemPool.mem_txs_iff, mem_filter]

/-- A reorganization leaves no candidate for the pool without an output it spends. -/
structure SwitchKeepsPool (env : Env) (policy : Policy) (pool : CTxMemPool)
    (vDisconnect vConnect : Chain) : Prop where
  /-- the candidates conflict neither with each other nor with the new blocks -/
  noConflict : ∀ t ∈ poolCandidates env policy pool vDisconnect,
    ∀ u ∈ poolCandidates env policy pool vDisconnect ++ vDelete vConnect,
      ∀ o ∈ t.spends, o ∈ u.spends → t = u
  /-- a disconnected transaction that a candidate spends from is in the new blocks or a candidate -/
  parents : ∀ t ∈ poolCandidates env policy pool vDisconnect, t ∉ vDelete vConnect →
    ∀ o ∈ t.spends, ∀ q ∈ vDelete vDisconnect, env.txHash q = o.hash → q ∉ vDelete vConnect →
      isResurrectable env policy q = true

/-- The condition on a call, in the state it finds. -/
def KeepsPool (st : NodeState) : NodeStep → Prop
  | .acceptToMemoryPool _ _ _ _ => True
  | .setBestChainInner _ block => ∀ t ∈ st.mempool.txs, ∀ u ∈ block.2.vtx,
      ∀ o ∈ t.spends, o ∈ u.spends → t = u
  | .reorganize env policy _ nDisconnect vConnect =>
    SwitchKeepsPool env policy st.mempool (st.chain.take nDisconnect) vConnect

instance (env : Env) (policy : Policy) (pool : CTxMemPool) (vDisconnect vConnect : Chain) :
    Decidable (SwitchKeepsPool env policy pool vDisconnect vConnect) :=
  decidable_of_iff
    ((∀ t ∈ poolCandidates env policy pool vDisconnect,
      ∀ u ∈ poolCandidates env policy pool vDisconnect ++ vDelete vConnect,
        ∀ o ∈ t.spends, o ∈ u.spends → t = u) ∧
      ∀ t ∈ poolCandidates env policy pool vDisconnect, t ∉ vDelete vConnect →
        ∀ o ∈ t.spends, ∀ q ∈ vDelete vDisconnect, env.txHash q = o.hash → q ∉ vDelete vConnect →
          isResurrectable env policy q = true)
    ⟨fun h => ⟨h.1, h.2⟩, fun h => ⟨h.noConflict, h.parents⟩⟩

instance (st : NodeState) : ∀ call, Decidable (KeepsPool st call)
  | .acceptToMemoryPool _ _ _ _ => inferInstanceAs (Decidable True)
  | .setBestChainInner _ block =>
    inferInstanceAs (Decidable (∀ t ∈ st.mempool.txs, ∀ u ∈ block.2.vtx,
      ∀ o ∈ t.spends, o ∈ u.spends → t = u))
  | .reorganize env policy _ nDisconnect vConnect =>
    inferInstanceAs
      (Decidable (SwitchKeepsPool env policy st.mempool (st.chain.take nDisconnect) vConnect))

/-! ## The invariant -/

/-- What holds between calls. -/
structure NodeInv (crypto : Crypto) (base : PIndex) (known : Set CTransaction) (st : NodeState) :
    Prop where
  reachable : Reachable crypto base st.txdb st.chain
  indexed : st.mempool.Indexed crypto known
  blocks : ∀ tx ∈ vDelete st.chain, tx ∈ known ∧ tx.checkTransaction = .ok ()
  funded : ∀ hash tx, st.mempool.mapTx.lookup hash = some tx → ∀ txin ∈ tx.vin,
    txin.prevout.hash ≠ hash ∧ st.Funded txin.prevout

theorem NodeInv.spendable (h : NodeInv crypto base known st) : st.Spendable := by
  intro hash tx htx txin htxin
  obtain ⟨hne, ⟨txPrev, hprev, hlt⟩ | ⟨pos, hslot, hnull⟩⟩ := h.funded hash tx htx txin htxin
  · exact .inl ⟨txPrev, hne, hprev, hlt⟩
  · obtain ⟨txindex, hentry, hpos⟩ := exists_entry_of_slot hslot
    exact .inr ⟨txindex, pos, hentry, hpos, hnull⟩

section History

variable {chain : Chain}

theorem mem_vDelete_iff : tx ∈ vDelete chain ↔ ∃ pos, (pos, tx) ∈ chain.txs := by
  have hstored : ∀ p : CBlockIndex × CBlock, (p.2.stored p.1).map (·.2) = p.2.vtx :=
    fun p => txPositions_txs p.1 _ p.2.vtx
  constructor
  · intro h
    obtain ⟨p, hp, htx⟩ := mem_flatMap.mp h
    rw [← hstored] at htx
    obtain ⟨t, ht, rfl⟩ := mem_map.mp htx
    exact ⟨t.1, mem_flatMap.mpr ⟨p, hp, mem_reverse.mpr ht⟩⟩
  · rintro ⟨pos, h⟩
    obtain ⟨p, hp, ht⟩ := mem_flatMap.mp h
    refine mem_flatMap.mpr ⟨p, hp, ?_⟩
    rw [← hstored]
    exact mem_map.mpr ⟨_, mem_reverse.mp ht, rfl⟩

theorem exists_item (crypto : Crypto) (h : tx ∈ vDelete chain) :
    ∃ pos, tx.item crypto pos ∈ chain.history crypto := by
  obtain ⟨pos, hpos⟩ := mem_vDelete_iff.mp h
  exact ⟨pos, mem_map.mpr ⟨_, hpos, rfl⟩⟩

theorem exists_tx_of_item {t : Item Uint256 CDiskTxPos} (h : t ∈ chain.history crypto) :
    ∃ tx ∈ vDelete chain, ∃ pos, t = tx.item crypto pos := by
  obtain ⟨p, hp, rfl⟩ := mem_map.mp h
  exact ⟨p.2, mem_vDelete_iff.mpr ⟨p.1, hp⟩, p.1, rfl⟩

theorem history_append (newer older : Chain) :
    Chain.history crypto (newer ++ older) = newer.history crypto ++ older.history crypto := by
  simp [Chain.history, Chain.txs]

theorem mem_vResurrect_iff : tx ∈ vResurrect chain ↔
    tx ∈ vDelete chain ∧ tx.isCoinBase = false ∧ tx.isCoinStake = false := by
  constructor
  · intro h
    obtain ⟨p, hp, htx⟩ := mem_flatMap.mp h
    obtain ⟨htx, hordinary⟩ := mem_filter.mp htx
    exact ⟨mem_flatMap.mpr ⟨p, hp, htx⟩, by simpa using hordinary⟩
  · rintro ⟨h, hcb, hcs⟩
    obtain ⟨p, hp, htx⟩ := mem_flatMap.mp h
    exact mem_flatMap.mpr ⟨p, hp, mem_filter.mpr ⟨htx, by simp [hcb, hcs]⟩⟩

end History

/-! ## Accepting -/

/-- What is funded stays so when a transaction comes to the pool. -/
theorem NodeState.Funded.addUnchecked {o : COutPoint} {hash : Uint256} (h : st.Funded o)
    (hfresh : hash ∉ st.mempool.mapTx) :
    NodeState.Funded { st with mempool := st.mempool.addUnchecked hash tx } o := by
  rcases h with ⟨txPrev, hprev, hlt⟩ | hunspent
  · have hne : o.hash ≠ hash := by
      rintro rfl
      exact hfresh (AList.lookup_isSome.mp (by rw [hprev]; rfl))
    refine .inl ⟨txPrev, ?_, hlt⟩
    rw [CTxMemPool.lookup_addUnchecked, if_neg hne, hprev]
  · exact .inr hunspent

/-- An accepted transaction spends what is unspent in the index or made in the pool. -/
theorem NodeInv.acceptToMemoryPool (h : NodeInv crypto base known st) (henv : env.crypto = crypto)
    (hknown : tx ∈ known)
    (hok : st.acceptToMemoryPool env policy pindexBest tx true = .ok st') :
    NodeInv crypto base known st' := by
  obtain ⟨pool', haccept, hok⟩ := bind_eq_ok.mp hok
  cases hok
  have hindexed := h.indexed.accept henv hknown haccept
  obtain ⟨hres, -, hfresh, hnone, -, hinputs, rfl⟩ := CTxMemPool.accept_eq_ok_iff.mp haccept
  refine ⟨h.reachable, hindexed, h.blocks, ?_⟩
  intro hash t ht txin htxin
  rw [CTxMemPool.lookup_addUnchecked] at ht
  split at ht
  · next he =>
    subst he
    cases ht
    have hfunded := checkPoolInputs_funded (ordinary_of_isResurrectable hres).1 hinputs txin htxin
    refine ⟨?_, hfunded.addUnchecked hfresh⟩
    -- an output of its own would have been in the pool or in the index already
    intro hown
    rcases hfunded with ⟨txPrev, hprev, -⟩ | ⟨p, hslot, -⟩
    · rw [hown] at hprev
      exact hfresh (AList.lookup_isSome.mp (by rw [hprev]; rfl))
    · obtain ⟨txindex, hentry, -⟩ := exists_entry_of_slot hslot
      rw [COutPoint.slot, hown, index, hnone rfl] at hentry
      cases hentry
  · obtain ⟨hne, hfunded⟩ := h.funded hash t ht txin htxin
    exact ⟨hne, hfunded.addUnchecked hfresh⟩

/-! ## Switching branches

Connecting a block to the tip is a switch that takes nothing off. -/

theorem reachable_of_disconnectTips {older : Chain} : ∀ {vDisconnect : Chain} {st : NodeState},
    Reachable crypto base st.txdb st.chain → st.chain = vDisconnect ++ older →
    foldAll (NodeState.disconnectTip crypto) st vDisconnect = .ok st' →
      Reachable crypto base st'.txdb older ∧ st'.chain = older ∧ st'.mempool = st.mempool
  | [], _, hr, hchain, h => by
    cases h
    rw [nil_append] at hchain
    exact ⟨hchain ▸ hr, hchain, rfl⟩
  | block :: vDisconnect, st, hr, hchain, h => by
    obtain ⟨st₁, h₁, hl⟩ := foldAll_cons_eq_ok.mp h
    obtain ⟨txdb, hok, h₁⟩ := bind_eq_ok.mp h₁
    cases h₁
    have htail : st.chain.tail = vDisconnect ++ older := by
      rw [hchain, cons_append, tail_cons]
    rw [hchain] at hr
    have hr₁ : Reachable crypto base txdb st.chain.tail := htail ▸ .disconnect hr hok
    have hrest := reachable_of_disconnectTips hr₁ htail hl
    exact ⟨hrest.1, hrest.2.1, hrest.2.2⟩

/-- What the chain has on top after some blocks were connected. -/
structure Connected (crypto : Crypto) (base : PIndex) (vConnect : List (CBlockIndex × CBlock))
    (newer older : Chain) (txdb : TxDB) : Prop where
  reachable : Reachable crypto base txdb (newer ++ older)
  mem : ∀ tx, tx ∈ vDelete newer ↔ tx ∈ vDelete vConnect
  checked : ∀ tx ∈ vDelete newer, tx.checkTransaction = .ok ()

theorem connected_of_connectTips (henv : env.crypto = crypto) :
    ∀ {vConnect : List (CBlockIndex × CBlock)} {st : NodeState},
    Reachable crypto base st.txdb st.chain → (∀ block ∈ vConnect, block.1.nFile ≠ 0xffffffff) →
    foldAll (NodeState.connectTip env base) st vConnect = .ok st' →
      ∃ newer, Connected crypto base vConnect newer st.chain st'.txdb ∧
        st'.chain = newer ++ st.chain ∧ st'.mempool = st.mempool
  | [], _, hr, _, h => by
    cases h
    exact ⟨[], ⟨hr, fun _ => .rfl, by simp [vDelete]⟩, rfl, rfl⟩
  | block :: vConnect, st, hr, hfile, h => by
    rw [forall_mem_cons] at hfile
    obtain ⟨st₁, h₁, hl⟩ := foldAll_cons_eq_ok.mp h
    obtain ⟨⟨txdb, pindex⟩, hok, h₁⟩ := bind_eq_ok.mp h₁
    cases h₁
    obtain ⟨newer, hnewer, hchain, hpool⟩ :=
      connected_of_connectTips henv (.connect hr henv hfile.1 hok) hfile.2 hl
    obtain ⟨_, _, _, hchecked, -⟩ := connectBlock_eq_ok hok
    have happend : newer ++ (pindex, block.2) :: st.chain =
        (newer ++ [(pindex, block.2)]) ++ st.chain := by simp
    refine ⟨newer ++ [(pindex, block.2)], ⟨?_, ?_, ?_⟩, ?_, hpool⟩
    · rw [← happend]
      exact hnewer.reachable
    · intro tx
      have hmem := hnewer.mem tx
      simp only [vDelete, flatMap_append, flatMap_cons, flatMap_nil, append_nil,
        mem_append] at hmem ⊢
      rw [hmem, or_comm]
    · intro tx htx
      simp only [vDelete, flatMap_append, flatMap_cons, flatMap_nil, append_nil,
        mem_append] at htx
      rcases htx with htx | htx
      · exact hnewer.checked tx htx
      · exact hchecked.checked tx htx
    · rw [hchain, happend]

/-- Where an output is when the blocks of `vDisconnect` are off the chain and `older` is left. -/
inductive OutputAt (crypto : Crypto) (pool : CTxMemPool) (vDisconnect older : Chain) (o : COutPoint) :
    Prop
  | inPool {txPrev : CTransaction} (found : pool.mapTx.lookup o.hash = some txPrev)
      (hlt : o.n.toNat < txPrev.vout.length)
  | disconnected {txPrev : CTransaction} (mem : txPrev ∈ vDelete vDisconnect)
      (hash : crypto.txHash txPrev = o.hash) (hlt : o.n.toNat < txPrev.vout.length)
  | onChain (unspent : Unspent (replay (older.history crypto)) o.slot)

section Switch

variable {vDisconnect older : Chain}

variable {o : COutPoint}

theorem outputAt_of_unspent
    (h : (∃ t ∈ vDisconnect.history crypto, t.key = o.slot.1 ∧ o.slot.2 < t.nOutputs) ∨ Unspent
      (replay (older.history crypto)) o.slot) : OutputAt crypto st.mempool vDisconnect older o := by
  rcases h with ⟨t, ht, hkey, hlt⟩ | hunspent
  · obtain ⟨tx, htx, pos, rfl⟩ := exists_tx_of_item ht
    exact .disconnected htx hkey hlt
  · exact .onChain hunspent

section

variable (h : NodeInv crypto base known st) (hchain : st.chain = vDisconnect ++ older)
include h hchain

/-- The outputs that a candidate for the pool spends, and they are not its own. -/
theorem NodeInv.outputAt (htx : tx ∈ poolCandidates env policy st.mempool vDisconnect)
    (ho : o ∈ tx.spends) :
    o.hash ≠ crypto.txHash tx ∧ OutputAt crypto st.mempool vDisconnect older o := by
  have hvalid := h.reachable.agrees.valid
  rw [hchain, history_append] at hvalid
  rcases mem_poolCandidates_iff.mp htx with ⟨hash, htx⟩ | ⟨hmem, -⟩
  · have hpool := h.indexed.checked hash tx htx
    rw [CTransaction.spends_of_not_isCoinBase hpool.not_coinBase] at ho
    obtain ⟨txin, htxin, rfl⟩ := mem_map.mp ho
    obtain ⟨hne, hfunded⟩ := h.funded hash tx htx txin htxin
    rw [hpool.hash]
    refine ⟨hne, ?_⟩
    rcases hfunded with ⟨txPrev, hprev, hlt⟩ | hunspent
    · exact .inPool hprev hlt
    · rw [h.reachable.agrees.unspent_iff, hchain, history_append] at hunspent
      exact outputAt_of_unspent (hvalid.unspent_drop hunspent)
  · obtain ⟨pos, hitem⟩ := exists_item crypto (mem_vResurrect_iff.mp hmem).1
    obtain ⟨hne, hout⟩ := hvalid.unspent_of_spends hitem (mem_item_spends.mpr ho)
    exact ⟨Ne.symm hne, outputAt_of_unspent hout⟩

theorem NodeInv.blocks_append (htx : tx ∈ vDelete vDisconnect ∨ tx ∈ vDelete older) :
    tx ∈ known ∧ tx.checkTransaction = .ok () := by
  refine h.blocks tx ?_
  rw [hchain, vDelete, flatMap_append]
  exact mem_append.mpr htx

theorem NodeInv.exists_output (ho : OutputAt crypto st.mempool vDisconnect older o) :
    ∃ tx ∈ known, crypto.txHash tx = o.hash ∧ o.n.toNat < tx.vout.length := by
  cases ho with
  | @inPool txPrev hfound hlt =>
    exact ⟨txPrev, h.indexed.known _ _ hfound, (h.indexed.checked _ _ hfound).hash, hlt⟩
  | @disconnected txPrev hmem hhash hlt =>
    exact ⟨txPrev, (h.blocks_append hchain (.inl hmem)).1, hhash, hlt⟩
  | onChain hunspent =>
    have hvalid := h.reachable.agrees.valid
    rw [hchain, history_append] at hvalid
    have hall := hvalid.of_append
    rw [← append_nil (older.history crypto)] at hall hunspent
    rcases hall.unspent_drop hunspent with ⟨t, ht, hkey, hlt⟩ | hnone
    · obtain ⟨tx, htx, pos, rfl⟩ := exists_tx_of_item ht
      exact ⟨tx, (h.blocks_append hchain (.inr htx)).1, hkey, hlt⟩
    · obtain ⟨p, hslot, -⟩ := hnone
      cases hslot

end

variable {newer : Chain} {txdb : TxDB}

theorem Connected.unspent (h : Connected crypto base vConnect newer older txdb)
    (hspend : ∀ u ∈ vDelete vConnect, o ∉ u.spends)
    (hlt : ∀ u ∈ vDelete vConnect, crypto.txHash u = o.hash → o.n.toNat < u.vout.length)
    (hout : Unspent (replay (older.history crypto)) o.slot ∨ ∃ u ∈ vDelete vConnect, crypto.txHash u
      = o.hash) : Unspent (index txdb) o.slot := by
  have hvalid := h.reachable.agrees.valid
  rw [history_append] at hvalid
  rw [h.reachable.agrees.unspent_iff, history_append]
  refine hvalid.unspent_append ?_ ?_ (hout.imp_right ?_)
  · intro t ht hmem
    obtain ⟨u, hu, pos, rfl⟩ := exists_tx_of_item ht
    exact hspend u ((h.mem u).mp hu) (mem_item_spends.mp hmem)
  · intro t ht hkey
    obtain ⟨u, hu, pos, rfl⟩ := exists_tx_of_item ht
    exact hlt u ((h.mem u).mp hu) hkey
  · rintro ⟨u, hu, hhash⟩
    obtain ⟨pos, hitem⟩ := exists_item crypto ((h.mem u).mpr hu)
    exact ⟨_, hitem, hhash⟩

/-- What `Reorganize` does once the blocks are connected. -/
def NodeState.updatePool (env : Env) (policy : Policy) (pindexBest : PIndex)
    (vDisconnect vConnect : Chain) (st : NodeState) : NodeState :=
  (st.resurrectAll env policy pindexBest (vResurrect vDisconnect)).deleteAll env.crypto
    (vDelete vConnect)

section

variable (h : NodeInv env.crypto base known st) (hinj : Set.InjOn env.crypto.txHash known)
  (hchain : st.chain = vDisconnect ++ older)
  (hkeep : SwitchKeepsPool env policy st.mempool vDisconnect vConnect)
include h hinj hchain hkeep

/-- A disconnected transaction that may be resurrected is, whatever stands before it in the queue. -/
theorem NodeInv.lookup_resurrected {q : CTransaction} (hmem : q ∈ vDelete vDisconnect)
    (hres : isResurrectable env policy q) :
    ((vResurrect vDisconnect).foldl (·.resurrect env policy txdb pindexBest)
      st.mempool).mapTx.lookup (env.txHash q) = some q := by
  have hordinary := ordinary_of_isResurrectable hres
  have hqueued : q ∈ vResurrect vDisconnect := mem_vResurrect_iff.mpr ⟨hmem, hordinary⟩
  refine CTxMemPool.mem_resurrectAll hinj hres (h.blocks_append hchain (.inl hmem)).2 h.indexed
    (fun t ht => (h.blocks_append hchain (.inl (mem_vResurrect_iff.mp ht).1)).1) hqueued ?_
  intro u hu txin htxin hprev
  have hcb : u.isCoinBase = false := by
    rcases hu with ⟨hash, hu⟩ | ⟨hu, -⟩
    · exact (h.indexed.checked hash u hu).not_coinBase
    · exact (mem_vResurrect_iff.mp hu).2.1
  refine (hkeep.noConflict q (mem_poolCandidates_iff.mpr (.inr ⟨hqueued, hres⟩)) u
    (mem_append_left _ (mem_poolCandidates_iff.mpr hu)) txin.prevout ?_ ?_).symm
  · rw [CTransaction.spends_of_not_isCoinBase hordinary.1]
    exact mem_map_of_mem htxin
  · rw [CTransaction.spends_of_not_isCoinBase hcb]
    exact hprev

/-- The output is of a transaction that stays in the pool, or of one a connected block has. -/
theorem NodeInv.funded_updatePool (hnew : Connected env.crypto base vConnect newer older st'.txdb)
    (hpool : st'.mempool = st.mempool) (hknown : ∀ tx ∈ vDelete vConnect, tx ∈ known)
    (htx : tx ∈ poolCandidates env policy st.mempool vDisconnect) (hnot : tx ∉ vDelete vConnect)
    (ho : o ∈ tx.spends) :
    (st'.updatePool env policy pindexBest vDisconnect vConnect).Funded o := by
  obtain ⟨-, hat⟩ := h.outputAt hchain htx ho
  have hspend : ∀ u ∈ vDelete vConnect, o ∉ u.spends := by
    intro u hu hou
    obtain rfl := hkeep.noConflict tx htx u (mem_append_right _ hu) o ho hou
    exact hnot hu
  by_cases hconfirmed : ∃ u ∈ vDelete vConnect, env.crypto.txHash u = o.hash
  · -- the new blocks have the transaction of the output
    obtain ⟨w, hw, hwhash, hwlt⟩ := h.exists_output hchain hat
    refine .inr (hnew.unspent hspend ?_ (.inr hconfirmed))
    intro u hu huhash
    obtain rfl : u = w := hinj (hknown u hu) hw (huhash.trans hwhash.symm)
    exact hwlt
  · push Not at hconfirmed
    have hkept : ∀ {q : CTransaction},
        ((vResurrect vDisconnect).foldl (·.resurrect env policy st'.txdb pindexBest)
          st'.mempool).mapTx.lookup o.hash = some q → o.n.toNat < q.vout.length →
        (st'.updatePool env policy pindexBest vDisconnect vConnect).Funded o := fun hq hlt =>
      .inl ⟨_, CTxMemPool.lookup_removeAll.mpr ⟨hq, fun u hu => Ne.symm (hconfirmed u hu)⟩, hlt⟩
    cases hat with
    | inPool hfound hlt =>
      refine hkept (CTxMemPool.lookup_resurrectAll ?_) hlt
      rw [hpool, hfound]
    | @disconnected q hmem hhash hlt =>
      have hq : q ∉ vDelete vConnect := fun hq => hconfirmed q hq hhash
      have hres := hkeep.parents tx htx hnot o ho q hmem hhash hq
      refine hkept ?_ hlt
      rw [← hhash, hpool]
      exact h.lookup_resurrected hinj hchain hkeep hmem hres
    | onChain hunspent =>
      exact .inr (hnew.unspent hspend (fun u hu he => absurd he (hconfirmed u hu)) (.inl hunspent))

theorem NodeInv.updatePool (hnew : Connected env.crypto base vConnect newer older st'.txdb)
    (hchain' : st'.chain = newer ++ older) (hpool : st'.mempool = st.mempool)
    (hknown : ∀ tx ∈ vDelete vConnect, tx ∈ known) :
    NodeInv env.crypto base known (st'.updatePool env policy pindexBest vDisconnect vConnect) := by
  have hindexed : ((vResurrect vDisconnect).foldl (·.resurrect env policy st'.txdb pindexBest)
      st'.mempool).Indexed env.crypto known := by
    refine CTxMemPool.indexed_resurrectAll (hpool ▸ h.indexed) fun t ht => ?_
    exact (h.blocks_append hchain (.inl (mem_vResurrect_iff.mp ht).1)).1
  refine ⟨?_, CTxMemPool.indexed_removeAll hinj hindexed hknown, ?_, ?_⟩
  · show Reachable env.crypto base st'.txdb st'.chain
    rw [hchain']
    exact hnew.reachable
  · intro tx htx
    change tx ∈ vDelete st'.chain at htx
    rw [hchain', vDelete, flatMap_append, mem_append] at htx
    rcases htx with htx | htx
    · exact ⟨hknown tx ((hnew.mem tx).mp htx), hnew.checked tx htx⟩
    · exact h.blocks_append hchain (.inr htx)
  · intro hash tx htx txin htxin
    obtain ⟨hfound, hgone⟩ := CTxMemPool.lookup_removeAll.mp htx
    have hcand : tx ∈ poolCandidates env policy st.mempool vDisconnect := by
      refine mem_poolCandidates_iff.mpr ((CTxMemPool.of_lookup_resurrectAll hfound).imp_left ?_)
      exact fun hold => ⟨hash, hpool ▸ hold⟩
    have htxpool := hindexed.checked hash tx hfound
    have hnot : tx ∉ vDelete vConnect := fun hmem => hgone tx hmem htxpool.hash.symm
    have ho : txin.prevout ∈ tx.spends := by
      rw [CTransaction.spends_of_not_isCoinBase htxpool.not_coinBase]
      exact mem_map_of_mem htxin
    refine ⟨?_, h.funded_updatePool hinj hchain hkeep hnew hpool hknown hcand hnot ho⟩
    rw [← htxpool.hash]
    exact (h.outputAt hchain hcand ho).1

end

end Switch

/-! ## Runs -/

theorem NodeInv.init : NodeInv crypto base known .init where
  reachable := .empty
  indexed := CTxMemPool.indexed_empty
  blocks := fun _ hmem => by cases hmem
  funded := fun _ _ hn => by cases hn

theorem NodeInv.reorganize {nDisconnect : Nat} (h : NodeInv env.crypto base known st)
    (hinj : Set.InjOn env.crypto.txHash known) (hknown : ∀ tx ∈ vDelete vConnect, tx ∈ known)
    (hfile : ∀ block ∈ vConnect, block.1.nFile ≠ 0xffffffff)
    (hkeep : SwitchKeepsPool env policy st.mempool (st.chain.take nDisconnect) vConnect)
    (hok : st.reorganize env policy base pindexBest nDisconnect vConnect = .ok st') :
    NodeInv env.crypto base known st' := by
  obtain ⟨st₁, hdisconnect, hok⟩ := bind_eq_ok.mp hok
  obtain ⟨st₂, hconnect, hok⟩ := bind_eq_ok.mp hok
  cases hok
  have hchain : st.chain = st.chain.take nDisconnect ++ st.chain.drop nDisconnect :=
    (take_append_drop _ _).symm
  obtain ⟨hr, hchain₁, hpool₁⟩ := reachable_of_disconnectTips h.reachable hchain hdisconnect
  rw [← hchain₁] at hr hchain
  obtain ⟨newer, hnew, hchain₂, hpool₂⟩ := connected_of_connectTips rfl hr hfile hconnect
  exact h.updatePool hinj hchain hkeep hnew hchain₂ (hpool₂.trans hpool₁) hknown

theorem CTxMemPool.Indexed.eq_of_spends (h : pool.Indexed crypto known) {hash hash' : Uint256}
    {t u : CTransaction} (ht : pool.mapTx.lookup hash = some t)
    (hu : pool.mapTx.lookup hash' = some u) {o : COutPoint} (hot : o ∈ t.spends)
    (hou : o ∈ u.spends) : t = u := by
  have hspends : ∀ {k : Uint256} {tx : CTransaction}, pool.mapTx.lookup k = some tx → o ∈ tx.spends →
      ∃ i, pool.Spends k i o := by
    intro k tx htx ho
    rw [CTransaction.spends_of_not_isCoinBase (h.checked k tx htx).not_coinBase] at ho
    obtain ⟨txin, htxin, rfl⟩ := mem_map.mp ho
    obtain ⟨i, hi⟩ := mem_iff_getElem?.mp htxin
    exact ⟨i, tx, txin, htx, hi, rfl⟩
  obtain ⟨i, hi⟩ := hspends ht hot
  obtain ⟨j, hj⟩ := hspends hu hou
  obtain ⟨rfl, -⟩ := h.spends_unique hi hj
  exact some.inj (ht.symm.trans hu)

/-- With nothing disconnected, all that counts is that the new blocks and the pool do not conflict. -/
theorem switchKeepsPool_nil (h : pool.Indexed crypto known)
    (hkeep : ∀ t ∈ pool.txs, ∀ u ∈ vDelete vConnect, ∀ o ∈ t.spends, o ∈ u.spends → t = u) :
    SwitchKeepsPool env policy pool [] vConnect where
  noConflict := by
    have hcand : poolCandidates env policy pool [] = pool.txs := append_nil _
    rw [hcand]
    intro t ht u hu o hot hou
    rcases mem_append.mp hu with hu | hu
    · obtain ⟨hash, ht⟩ := CTxMemPool.mem_txs_iff.mp ht
      obtain ⟨hash', hu⟩ := CTxMemPool.mem_txs_iff.mp hu
      exact h.eq_of_spends ht hu hot hou
    · exact hkeep t ht u hu o hot hou
  parents := by
    rintro t - - o - q ⟨⟩

theorem NodeInv.setBestChainInner {block : CBlockIndex × CBlock}
    (h : NodeInv env.crypto base known st) (hinj : Set.InjOn env.crypto.txHash known)
    (hknown : ∀ tx ∈ block.2.vtx, tx ∈ known) (hfile : block.1.nFile ≠ 0xffffffff)
    (hkeep : KeepsPool st (.setBestChainInner env block))
    (hok : st.setBestChainInner env base block = .ok st') : NodeInv env.crypto base known st' := by
  obtain ⟨st₁, hconnect, hok⟩ := bind_eq_ok.mp hok
  cases hok
  have hvtx : vDelete [block] = block.2.vtx := by simp [vDelete]
  have hloop : foldAll (NodeState.connectTip env base) st [block] = .ok st₁ :=
    foldAll_cons_eq_ok.mpr ⟨st₁, hconnect, rfl⟩
  obtain ⟨newer, hnew, hchain, hpool⟩ :=
    connected_of_connectTips rfl h.reachable (by simpa using hfile) hloop
  -- whatever the policy is, nothing is resurrected
  let policy : Policy := ⟨fun _ => none, fun _ _ => true, fun _ => false⟩
  have hswitch : SwitchKeepsPool env policy st.mempool [] [block] :=
    switchKeepsPool_nil h.indexed (hvtx.symm ▸ hkeep)
  have hinv : NodeInv env.crypto base known (st₁.updatePool env policy [] [] [block]) :=
    h.updatePool hinj rfl hswitch hnew hchain hpool (hvtx.symm ▸ hknown)
  rwa [NodeState.updatePool, hvtx] at hinv

/-- One call. -/
theorem NodeInv.step {call : NodeStep} (h : NodeInv crypto base known st)
    (hinj : Set.InjOn crypto.txHash known) (henv : call.env.crypto = crypto)
    (hknown : ∀ tx ∈ call.txs, tx ∈ known) (hfile : ∀ block ∈ call.blocks, block.1.nFile ≠ 0xffffffff)
    (hkeep : KeepsPool st call) (hok : call.run base st = .ok st') :
    NodeInv crypto base known st' := by
  subst henv
  cases call with
  | acceptToMemoryPool env policy pindexBest tx =>
    exact h.acceptToMemoryPool rfl (hknown tx mem_cons_self) (mapError_eq_ok.mp hok)
  | setBestChainInner env block =>
    exact h.setBestChainInner hinj hknown (hfile block mem_cons_self) hkeep hok
  | reorganize env policy pindexBest nDisconnect vConnect =>
    exact h.reorganize hinj hknown hfile hkeep hok

/-- In every run whose calls neither confirm a transaction that conflicts with the pool nor take one
off the chain for good that the pool spends from, every input of the pool refers in every state to
an output of the pool or to an unspent one of the index. The txids are different. -/
theorem spendable_of_keepsPool (crypto : Crypto) (base : PIndex) (known : Set CTransaction)
    (hinj : Set.InjOn crypto.txHash known) (st : NodeState)
    (h : NodeRun crypto base known KeepsPool st) : st.Spendable := by
  have hinv : NodeInv crypto base known st := by
    induction h with
    | init => exact .init
    | step _ henv hknown hfile hkeep hok ih => exact ih.step hinj henv hknown hfile hkeep hok
  exact hinv.spendable

/-! ### Two runs -/

def runSteps (cond : NodeState → NodeStep → Prop) [∀ st call, Decidable (cond st call)]
    (base : PIndex) : NodeState → List NodeStep → Except Reject NodeState :=
  foldAll fun st call => do
    require (decide (cond st call)) (.error "")
    call.run base st

variable {cond : NodeState → NodeStep → Prop} {calls : List NodeStep}

theorem nodeRun_of_runSteps [∀ st call, Decidable (cond st call)]
    (hrun : NodeRun crypto base known cond st) (henv : ∀ call ∈ calls, call.env.crypto = crypto)
    (hknown : ∀ call ∈ calls, ∀ tx ∈ call.txs, tx ∈ known)
    (hfile : ∀ call ∈ calls, ∀ block ∈ call.blocks, block.1.nFile ≠ 0xffffffff)
    (h : runSteps cond base st calls = .ok st') : NodeRun crypto base known cond st' := by
  refine foldAll_invariant (fun call hcall st st' hrun hstep => ?_) h hrun
  obtain ⟨hcond, hok⟩ := require_bind_eq_ok.mp hstep
  exact hrun.step (henv call hcall) (hknown call hcall) (hfile call hcall)
    (of_decide_eq_true hcond) hok

def callTxs (calls : List NodeStep) : List CTransaction := calls.flatMap NodeStep.txs

theorem nodeRun_sample [∀ st call, Decidable (cond st call)]
    (hcrypto : calls.map (·.env.crypto) = List.replicate calls.length Crypto.sample)
    (hfile : ∀ call ∈ calls, ∀ block ∈ call.blocks, block.1.nFile ≠ 0xffffffff)
    (h : runSteps cond base .init calls = .ok st) :
    NodeRun Crypto.sample base {tx | tx ∈ callTxs calls} cond st := by
  refine nodeRun_of_runSteps .init ?_ ?_ hfile h
  · intro call hcall
    have hmem : call.env.crypto ∈ calls.map (·.env.crypto) := mem_map.mpr ⟨call, hcall, rfl⟩
    rw [hcrypto] at hmem
    exact eq_of_mem_replicate hmem
  · exact fun call hcall tx htx => mem_flatMap.mpr ⟨call, hcall, htx⟩

def paidCoinbase (n : UInt8) : CTransaction :=
  sampleTx [⟨COutPoint.null, [n, 2], 0xffffffff⟩] [5000000]

def paidBlock (nHeight : UInt32) (n : UInt8) (vtx : List CTransaction) : CBlockIndex × CBlock :=
  (sampleIndex nHeight.toNat (1000 * n.toUInt32), sampleBlock (paidCoinbase n :: vtx))

def pooledSpend : CTransaction := sampleTx [sampleSpend (paidCoinbase 1) 0] [4000000]

def pooledChild : CTransaction := sampleTx [sampleSpend pooledSpend 0] [3000000]

def rivalSpend : CTransaction := sampleTx [sampleSpend (paidCoinbase 1) 0] [3900000]

def lateSpend : CTransaction := { pooledSpend with nLockTime := 0xffffffff }

def lateChild : CTransaction := sampleTx [sampleSpend lateSpend 0] [3000000]

def matureBlocks : List (CBlockIndex × CBlock) :=
  [1, 2, 3, 4, 5, 6, 7, 8, 9, 10, 11].map fun n : UInt32 => paidBlock n n.toUInt8 []

def matureEnv : Env :=
  { Env.sample with
    readTx := sampleDisk (paidBlock 12 12 [pooledSpend] :: paidBlock 12 13 [rivalSpend] ::
      paidBlock 12 15 [lateSpend] :: matureBlocks) }

def maturePolicy : Policy := ⟨fun _ => none, fun _ _ => true, fun _ => false⟩

def acceptCall (tx : CTransaction) : NodeStep :=
  .acceptToMemoryPool matureEnv maturePolicy (Chain.pindex matureBlocks.reverse [sampleIndex 0 8]) tx

def replacedCalls : List NodeStep :=
  matureBlocks.map (.setBestChainInner matureEnv) ++
    [acceptCall pooledSpend, acceptCall pooledChild,
      .setBestChainInner matureEnv (paidBlock 12 12 [pooledSpend]),
      .reorganize matureEnv maturePolicy [] 1 [paidBlock 12 14 []]]

/-- In the end both are in the pool again, and what they spend is there. -/
theorem replacedBlock_spendable : ∃ known st, Set.InjOn Crypto.sample.txHash known ∧
    NodeRun Crypto.sample [sampleIndex 0 8] known KeepsPool st ∧
    st.mempool.mapTx.lookup (Crypto.sample.txHash pooledSpend) = some pooledSpend ∧
    st.mempool.mapTx.lookup (Crypto.sample.txHash pooledChild) = some pooledChild ∧ st.Spendable := by
  obtain ⟨st, hrun, hspend, hchild⟩ :
      ∃ st, runSteps KeepsPool [sampleIndex 0 8] .init replacedCalls = .ok st ∧
        st.mempool.mapTx.lookup (Crypto.sample.txHash pooledSpend) = some pooledSpend ∧
        st.mempool.mapTx.lookup (Crypto.sample.txHash pooledChild) = some pooledChild := by
    decide +kernel
  have hinj : ∀ t ∈ callTxs replacedCalls, ∀ u ∈ callTxs replacedCalls,
      Crypto.sample.txHash t = Crypto.sample.txHash u → t = u := by decide +kernel
  have hst := nodeRun_sample rfl (by decide +kernel) hrun
  have hset : Set.InjOn Crypto.sample.txHash {tx | tx ∈ callTxs replacedCalls} :=
    fun t ht u hu => hinj t ht u hu
  exact ⟨_, st, hset, hst, hspend, hchild,
    spendable_of_keepsPool Crypto.sample [sampleIndex 0 8] _ hset st hst⟩

def rivalCalls : List NodeStep :=
  matureBlocks.map (.setBestChainInner matureEnv) ++
    [acceptCall pooledSpend, .setBestChainInner matureEnv (paidBlock 12 13 [rivalSpend])]

/-- The pool keeps the first one, although its input is spent. -/
theorem rivalBlock_leaves_spent : ∃ known st, Set.InjOn Crypto.sample.txHash known ∧
    NodeRun Crypto.sample [sampleIndex 0 8] known (fun _ _ => True) st ∧ ¬ st.Spendable := by
  let hash := Crypto.sample.txHash (paidCoinbase 1)
  obtain ⟨st, hrun, htx, hnone, e, he, p, hp, hspent⟩ :
      ∃ st, runSteps (fun _ _ => True) [sampleIndex 0 8] .init rivalCalls = .ok st ∧
        st.mempool.mapTx.lookup (Crypto.sample.txHash pooledSpend) = some pooledSpend ∧
        st.mempool.mapTx.lookup hash = none ∧ ∃ e, st.txdb.lookup hash = some e ∧
          ∃ p, e.vSpent[0]? = some p ∧ p.isNull = false := by
    decide +kernel
  have hinj : ∀ t ∈ callTxs rivalCalls, ∀ u ∈ callTxs rivalCalls,
      Crypto.sample.txHash t = Crypto.sample.txHash u → t = u := by decide +kernel
  refine ⟨_, st, fun t ht u hu => hinj t ht u hu, nodeRun_sample rfl (by decide +kernel) hrun, ?_⟩
  intro h
  rcases h _ _ htx (sampleSpend (paidCoinbase 1) 0) mem_cons_self with
    ⟨txPrev, -, hprev, -⟩ | ⟨txindex, pos, hentry, hpos, hnull⟩
  · exact some_ne_none txPrev (hprev.symm.trans hnone)
  · cases he.symm.trans hentry
    cases hp.symm.trans hpos
    cases hspent.symm.trans hnull

-- A reorganization takes a transaction off the chain that the pool refuses, and keeps its child.
example : (runSteps (fun _ _ => True) [sampleIndex 0 8] .init
    (matureBlocks.map (.setBestChainInner matureEnv) ++
      [.setBestChainInner matureEnv (paidBlock 12 15 [lateSpend]), acceptCall lateChild,
        .reorganize matureEnv maturePolicy [] 1 [paidBlock 12 14 []]])).toOption.map (fun st =>
      (st.mempool.txs, st.txdb.lookup (Crypto.sample.txHash lateSpend))) =
    some ([lateChild], none) := by
  decide +kernel

end NovaCoin
