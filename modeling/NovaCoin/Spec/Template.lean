import Mathlib.Algebra.Order.BigOperators.Group.List
import NovaCoin.Spec.Selection

/-!
# From a template to ConnectBlock

The loops of `CreateNewBlock` and `ConnectBlock` connect the same transactions to different indexes.
`mapTestPool` has all of them at the position that stands for the memory pool, and knows nothing of
the coinbase and the coinstake; `mapQueuedChanges` has them where the block is on disk. `Follows`
relates the two states, and a step of the first loop is answered by a step of the second.
-/

namespace NovaCoin

open Guard SpentIndex List

/-! ## Maturity -/

theorem takeWhile_subset {α : Type} {p q : α → Bool} (h : ∀ a, p a → q a)
    (l : List α) : l.takeWhile p ⊆ l.takeWhile q := by
  induction l with
  | nil => simp
  | cons a l ih =>
    cases hp : p a with
    | false => simp [hp]
    | true =>
      rw [takeWhile_cons_of_pos hp, takeWhile_cons_of_pos (h a hp)]
      exact cons_subset_cons a ih

/-- Coins that are mature for the best block are mature for one on top of it, if not from that
block. -/
theorem isImmature_cons {fTestNet : Bool} {pindex prev : CBlockIndex} {pprev : PIndex}
    {pos : CDiskTxPos} (hheight : pindex.nHeight = prev.nHeight + 1)
    (hne : ¬(pos.nFile = pindex.nFile ∧ pos.nBlockPos = pindex.nBlockPos))
    (h : isImmature fTestNet (prev :: pprev) pos = false) :
    isImmature fTestNet (pindex :: prev :: pprev) pos = false := by
  simp only [isImmature, any_eq_false] at h ⊢
  intro i hi
  by_cases hself : i = pindex
  · subst hself
    simp only [Bool.and_eq_true, beq_iff_eq]
    exact fun he => hne ⟨he.2.symm, he.1.symm⟩
  · refine h i ?_
    have hmem : i ∈ (prev :: pprev).takeWhile fun i =>
        decide (pindex.nHeight - i.nHeight < nCoinbaseMaturity fTestNet) := by
      rw [takeWhile_cons] at hi
      split at hi
      · exact (mem_cons.mp hi).resolve_left hself
      · simp at hi
    refine takeWhile_subset (fun j hj => ?_) _ hmem
    rw [decide_eq_true_eq] at hj ⊢
    omega

/-! ## Covering -/

variable {o : COutPoint} {pindex : CBlockIndex} {nValueOut : Int64}

section Covers

variable {env env' : Env} {pindexBlock pindexBlock' : PIndex} {idx idx' : Index Uint256 CDiskTxPos}

theorem Covers.refl (env : Env) (pindexBlock : PIndex) (idx : Index Uint256 CDiskTxPos)
    (o : COutPoint) : Covers env env pindexBlock pindexBlock idx idx o :=
  fun e p _ he hp hnull hread => ⟨e, p, he, hp, hnull, hread, id⟩

theorem Covers.connect_right (h : Covers env env' pindexBlock pindexBlock' idx idx' o)
    {t : Item Uint256 CDiskTxPos} (hkey : AllSpent idx t.key) (hs : o.slot ∉ t.spends) :
    Covers env env' pindexBlock pindexBlock' idx (connect idx' t) o := by
  intro e p txPrev he hp hnull hprev
  obtain ⟨e', p', he', hp', hnull', hprev', hripe⟩ := h e p txPrev he hp hnull hprev
  have hne : o.hash ≠ t.key := by
    intro hk
    refine hkey o.n.toNat ⟨p, ?_, hnull⟩
    rw [← hk, slot_eq_of_entry (o := (o.hash, o.n.toNat)) he]
    exact hp
  refine ⟨e'.markAt o.hash t.spends t.pos, p', ?_, ?_, hnull', hprev', hripe⟩
  · rw [connect_of_ne hne, markAll_apply, he', Option.map_some]
  · have hs' : (o.hash, o.n.toNat) ∉ t.spends := hs
    rw [Entry.getElem?_markAt, hp', Option.map_some, if_neg hs']

/-- Both indexes get the transaction, each at the position it is read from there. -/
theorem Covers.connect {crypto : Crypto} {tx : CTransaction} {pos pos' : CDiskTxPos}
    (h : Covers env env' pindexBlock pindexBlock' idx idx' o) (hpos : pos.isNull = false)
    (hcb : tx.isCoinBase = false) (hcs : tx.isCoinStake = false)
    (hread : readPrev env (crypto.txHash tx) (some pos) = .ok tx)
    (hread' : readPrev env' (crypto.txHash tx) (some pos') = .ok tx) :
    Covers env env' pindexBlock pindexBlock' (connect idx (tx.item crypto pos))
      (connect idx' (tx.item crypto pos')) o := by
  intro e p txPrev he hp hnull hprev
  by_cases hk : o.hash = crypto.txHash tx
  · -- an output of the transaction itself
    have hkey : o.hash = (tx.item crypto pos).key := hk
    have hkey' : o.hash = (tx.item crypto pos').key := hk
    rw [hkey, connect_key] at he
    cases he
    replace hprev : readPrev env o.hash (some pos) = .ok txPrev := hprev
    rw [hk, hread] at hprev
    cases hprev
    refine ⟨⟨pos', replicate tx.vout.length null⟩, p, ?_, hp, hnull, ?_, ?_⟩
    · rw [hkey', connect_key]
      rfl
    · rw [hk]
      exact hread'
    · exact fun _ => by simp [isUnripe, hcb, hcs]
  · have hne : o.hash ≠ (tx.item crypto pos).key := hk
    have hne' : o.hash ≠ (tx.item crypto pos').key := hk
    rw [connect_of_ne hne, markAll_apply] at he
    obtain ⟨e₀, he₀, rfl⟩ := Option.map_eq_some_iff.mp he
    rw [Entry.getElem?_markAt] at hp
    obtain ⟨q, hq, hqp⟩ := Option.map_eq_some_iff.mp hp
    split at hqp
    · -- it is spent
      have hp₀ : (tx.item crypto pos).pos.isNull = false := hpos
      rw [hqp, hnull] at hp₀
      cases hp₀
    · next hs =>
      subst hqp
      obtain ⟨e', p', he', hp', hnull', hprev', hripe⟩ := h e₀ q txPrev he₀ hq hnull hprev
      refine ⟨e'.markAt o.hash (tx.item crypto pos').spends pos', p', ?_, ?_, hnull', hprev', hripe⟩
      · rw [connect_of_ne hne', markAll_apply, he', Option.map_some]
        rfl
      · have hs' : (o.hash, o.n.toNat) ∉ (tx.item crypto pos').spends := hs
        rw [Entry.getElem?_markAt, hp', Option.map_some, if_neg hs']

end Covers

/-! ## A round of ConnectBlock -/

section ConnectTx

variable {env : Env} {db : TxDB} {pprev : PIndex} {fJustCheck fScriptChecks : Bool}
  {c : ConnectState} {tx : CTransaction}

/-- What the miner checked is what `ConnectBlock` asks of one transaction. -/
theorem exists_connectTx {inputs : MapPrevTx} {nP2SHSigOps : Nat} {nValueIn : Int64}
    {queue : QueuedChanges} {vChecks : List CScriptCheck} (hcb : tx.isCoinBase = false)
    (hall : AllSpent (index db) (env.txHash tx))
    (hfetch : fetchInputs env db c.mapQueuedChanges true false tx = .ok inputs)
    (hp2sh : tx.getP2SHSigOpCount inputs = .ok nP2SHSigOps)
    (hsig : c.nSigOps + (tx.getLegacySigOpCount + nP2SHSigOps) ≤ MAX_BLOCK_SIGOPS)
    (hin : tx.getValueIn inputs = .ok nValueIn) (hout : tx.getValueOut = .ok nValueOut)
    (hconnect : connectInputs env db inputs c.mapQueuedChanges
      (blockArgs env (pindex :: pprev) fScriptChecks (c.pos pindex) tx) tx = .ok (queue, vChecks)) :
    ∃ c', connectTx env db (pindex :: pprev) fJustCheck fScriptChecks c tx = .ok c' ∧
      c'.nSigOps = c.nSigOps + (tx.getLegacySigOpCount + nP2SHSigOps) ∧
      c'.nFees = (if tx.isCoinStake then c.nFees else c.nFees + (nValueIn - nValueOut)) ∧
      c'.vChecks = c.vChecks ++ vChecks := by
  have hlegacy : c.nSigOps + tx.getLegacySigOpCount ≤ MAX_BLOCK_SIGOPS := by omega
  have hsig' : c.nSigOps + tx.getLegacySigOpCount + nP2SHSigOps ≤ MAX_BLOCK_SIGOPS := by omega
  exact ⟨_, connectTx_iff.mpr ⟨hall, hlegacy, _, (if_neg (by simp [hcb])).trans
    (connectSpends_iff.mpr ⟨inputs, hfetch, nP2SHSigOps, hp2sh, hsig', nValueIn, hin, nValueOut, hout,
      queue, vChecks, hconnect, rfl⟩), rfl⟩, Nat.add_assoc _ _ _, rfl, rfl⟩

theorem exists_connectTx_coinBase (hcb : tx.isCoinBase)
    (hall : AllSpent (index db) (env.txHash tx))
    (hsig : c.nSigOps + tx.getLegacySigOpCount ≤ MAX_BLOCK_SIGOPS)
    (hout : tx.getValueOut = .ok nValueOut) :
    ∃ c', connectTx env db (pindex :: pprev) fJustCheck fScriptChecks c tx = .ok c' ∧
      c'.nSigOps = c.nSigOps + tx.getLegacySigOpCount ∧ c'.nFees = c.nFees ∧
      c'.vChecks = c.vChecks := by
  exact ⟨_, connectTx_iff.mpr ⟨hall, hsig, _,
    (if_pos hcb).trans (bind_eq_ok.mpr ⟨nValueOut, hout, rfl⟩), rfl⟩, rfl, rfl, rfl⟩

end ConnectTx

/-! ## Where the outputs that the pool spends come from -/

namespace Miner

variable {D : Type} {m : Miner D}

/-- The transaction an outpoint names: by its position one of the index, or one of the pool. -/
def prevTx (m : Miner D) (hash : Uint256) : Option CTransaction :=
  match m.db.lookup hash with
  | some txindex => m.env.readTx txindex.pos
  | none => m.mempool.mapTx.lookup hash

/-- A candidate that is in the index has an input that is spent there. -/
def Unconfirmed (m : Miner D) : Prop :=
  ∀ tx ∈ m.candidates, index m.db (m.env.txHash tx) = none ∨ ∃ txin ∈ tx.vin,
    (index m.db txin.prevout.hash).isSome = true ∧ ¬Unspent (index m.db) txin.prevout.slot

/-- What can be spent while the template grows is an output of the pool or was unspent in the index.
-/
def Origin (m : Miner D) (idx : Index Uint256 CDiskTxPos) : Prop :=
  ∀ o e, idx o.1 = some e → Unspent idx o → (e.pos = CDiskTxPos.inMemory ∧ index m.db o.1 = none) ∨
      (Unspent (index m.db) o ∧ ∃ e₀, index m.db o.1 = some e₀ ∧ e.pos = e₀.pos)

theorem origin_index : m.Origin (index m.db) := fun _ e he hu => .inr ⟨hu, e, he, rfl⟩

variable {idx : Index Uint256 CDiskTxPos} {tx txPrev : CTransaction} {s s' : Selected}
  {inputs : MapPrevTx} {nValueIn : Int64} {nP2SHSigOps : Nat} {queue : QueuedChanges}
  {txs : List CTransaction}

theorem Origin.connect (h : m.Origin idx) (hnew : index m.db (m.env.txHash tx) = none) :
    m.Origin (connect idx (tx.item m.env.crypto .inMemory)) := by
  intro o e he hu
  rcases (unspent_connect_iff rfl).mp hu with ⟨hk, -⟩ | ⟨hk, -, hu⟩
  · rw [hk, connect_key] at he
    cases he
    exact .inl ⟨rfl, by rw [hk]; exact hnew⟩
  · rw [connect_of_ne hk, markAll_apply] at he
    obtain ⟨e₁, he₁, rfl⟩ := Option.map_eq_some_iff.mp he
    exact h o e₁ he₁ hu

/-- The previous transaction that `FetchInputs` reads does not depend on the template. -/
theorem Origin.prevTx_eq (h : m.Origin idx) (hmem : NotInMemory (index m.db)) {e : CTxIndex}
    (he : idx o.hash = some e) (hunspent : Unspent idx o.slot)
    (hread : readPrev m.poolEnv o.hash (some e.pos) = .ok txPrev) :
    m.prevTx o.hash = some txPrev := by
  rcases h o.slot e he hunspent with ⟨hpos, hnone⟩ | ⟨-, e₀, he₀, hpos⟩
  · have hnone' : m.db.lookup o.hash = none := hnone
    rw [hpos] at hread
    rw [prevTx, hnone']
    simpa [readPrev, poolEnv, Env.withPool] using hread
  · have he₀' : m.db.lookup o.hash = some e₀ := he₀
    rw [hpos] at hread
    have hdisk := readPrev_eq_ok (hmem _ _ he₀) hread
    rw [prevTx, he₀']
    exact hdisk

theorem Origin.unspent (h : m.Origin idx) (hu : Unspent idx o.slot)
    (hsome : (index m.db o.hash).isSome) : Unspent (index m.db) o.slot := by
  obtain ⟨p, hslot, hnull⟩ := hu
  obtain ⟨e, he, -⟩ := exists_entry_of_slot hslot
  rcases h o.slot e he ⟨p, hslot, hnull⟩ with ⟨-, hnone⟩ | ⟨hunspent, -⟩
  · have hnone' : index m.db o.hash = none := hnone
    rw [hnone'] at hsome
    cases hsome
  · exact hunspent

section

variable (h : Added m s tx inputs nValueIn nValueOut nP2SHSigOps queue s')
  (hcb : tx.isCoinBase = false) (hd : (tx.vin.map (·.prevout)).Nodup)
include h hcb hd

theorem Added.view :
    NovaCoin.view m.db s'.mapTestPool =
      connect (NovaCoin.view m.db s.mapTestPool) (tx.item m.env.crypto .inMemory) := by
  obtain ⟨vChecks, hconnect⟩ := h.connected
  obtain ⟨-, hv, -⟩ := connectInputs_eq_ok (by rfl) hcb hd (fetchInputs_eq_ok (by rfl) h.fetched)
    hconnect
  rw [h.eq]
  refine view_insert_item ?_
  rw [CTransaction.item_spends hcb]
  exact hv

theorem Added.unspent :
    ∀ txin ∈ tx.vin, Unspent (NovaCoin.view m.db s.mapTestPool) txin.prevout.slot := by
  obtain ⟨vChecks, hconnect⟩ := h.connected
  obtain ⟨hunspent, -, -⟩ := connectInputs_eq_ok (by rfl) hcb hd
    (fetchInputs_eq_ok (by rfl) h.fetched) hconnect
  exact fun txin htx => hunspent _ (mem_map_of_mem htx)

variable (ho : m.Origin (NovaCoin.view m.db s.mapTestPool))
include ho

theorem Added.index_eq_none (hu : m.Unconfirmed) (hin : tx ∈ m.candidates) :
    index m.db (m.env.txHash tx) = none := by
  refine (hu tx hin).resolve_right ?_
  rintro ⟨txin, htx, hsome, hspent⟩
  exact hspent (ho.unspent (h.unspent hcb hd txin htx) hsome)

theorem Added.origin (hu : m.Unconfirmed) (hin : tx ∈ m.candidates) :
    m.Origin (NovaCoin.view m.db s'.mapTestPool) := by
  rw [h.view hcb hd]
  exact ho.connect (h.index_eq_none hcb hd ho hu hin)

theorem Added.prevTx_eq (hmem : NotInMemory (index m.db)) {txin : CTxIn} (htx : txin ∈ tx.vin)
    {txindex : CTxIndex} (hfound : inputs txin.prevout.hash = some (txindex, txPrev)) :
    m.prevTx txin.prevout.hash = some txPrev := by
  obtain ⟨he, hread⟩ := fetchInputs_eq_ok (by rfl) h.fetched _ _ _ hfound
  exact ho.prevTx_eq hmem he (h.unspent hcb hd txin htx) hread

end

/-! ## The two loops -/

/-- The scripts of the candidates that pass under the template's flags pass under those of
`ConnectBlock`. -/
def ScriptsAgree (m : Miner D) : Prop :=
  ∀ tx ∈ m.candidates, ∀ input ∈ tx.vin.zipIdx, ∀ txPrev,
    m.prevTx input.1.prevout.hash = some txPrev →
    (CScriptCheck.new txPrev tx input.1 input.2 MANDATORY_SCRIPT_VERIFY_FLAGS).run m.env.crypto =
      true →
    (CScriptCheck.new txPrev tx input.1 input.2 (connectBlockFlags tx.nTime)).run m.env.crypto =
      true

/-- `ConnectBlock` is ready for what the template adds next, apart from what spends `taken`. -/
structure Follows (m : Miner D) (env' : Env) (pindex : CBlockIndex) (taken : List (Uint256 × Nat))
    (s : Selected) (c : ConnectState) : Prop where
  origin : m.Origin (view m.db s.mapTestPool)
  covers : ∀ o : COutPoint, o.slot ∉ taken → Covers m.poolEnv env' m.pindexPrev
    (pindex :: m.pindexPrev) (view m.db s.mapTestPool) (view m.db c.mapQueuedChanges) o
  nFees : c.nFees = s.nFees
  nSigOps : c.nSigOps ≤ s.nBlockSigOps
  vChecks : c.vChecks.all (·.run env'.crypto) = true

section Follows

variable {env' : Env} {taken : List (Uint256 × Nat)} (hc : m.mempool.Checked m.env.crypto)
  (hu : m.Unconfirmed) (hmem : NotInMemory (index m.db)) (hscripts : m.ScriptsAgree)
  (hcrypto : env'.crypto = m.env.crypto) (hpos : pindex.nBlockPos ≠ 1)

include hc hu hmem hscripts hcrypto hpos

/-- The step lemma: what the template has added, `ConnectBlock` connects. -/
theorem Follows.step {c : ConnectState} (h : Follows m env' pindex taken s c) (hin : m.InPool tx)
    (hcandidate : tx ∈ m.candidates) (hadd : m.addTx s tx = .ok (some s'))
    (hfree : ∀ txin ∈ tx.vin, txin.prevout.slot ∉ taken)
    (hdisk : env'.readTx (c.pos pindex) = some tx) (fScriptChecks : Bool) :
    ∃ c', connectTx env' m.db (pindex :: m.pindexPrev) false fScriptChecks c tx = .ok c' ∧
      c'.nTxPos = nextTxPos false c.nTxPos tx ∧ Follows m env' pindex taken s' c' := by
  obtain ⟨inputs, nValueIn, nValueOut, nP2SHSigOps, queue, hadded⟩ := addTx_eq_some hadd
  have htx := hin.poolTx hc
  have hcb := htx.not_coinBase
  have hd := CTransaction.nodup_of_checkTransaction htx.checked
  obtain ⟨vChecks, hconnect⟩ := hadded.connected
  -- the inputs on the other side
  have htransfer : ConnectsLike env' m.db c.mapQueuedChanges
      (blockArgs env' (pindex :: m.pindexPrev) fScriptChecks (c.pos pindex) tx) tx inputs := by
    refine connectInputs_transfer (by rfl) (by rfl) rfl hcb hd hadded.fetched hconnect ?_ ?_ ?_
    · exact fun txin htxin => h.covers _ (hfree txin htxin)
    · intro input hinput txindex txPrev hfound hrun _
      have hprev := hadded.prevTx_eq hcb hd h.origin hmem (fst_mem_of_mem_zipIdx hinput) hfound
      rw [hcrypto]
      exact hscripts tx hcandidate input hinput txPrev hprev (hrun rfl)
    · intro v hv
      rw [checkAmounts, if_neg (by simp [htx.not_coinStake])] at hv ⊢
      exact hv
  obtain ⟨inputs', hfetch', houts, queue', vChecks', hconnect', hchecks⟩ := htransfer
  have hall : AllSpent (index m.db) (env'.txHash tx) := by
    rw [Env.txHash, hcrypto]
    exact allSpent_of_none (hadded.index_eq_none hcb hd h.origin hu hcandidate)
  have hsig : c.nSigOps + (tx.getLegacySigOpCount + nP2SHSigOps) ≤ MAX_BLOCK_SIGOPS := by
    have h₁ := h.nSigOps
    have h₂ := hadded.sigOps
    omega
  obtain ⟨c', hok, hs, hfees, hv⟩ := exists_connectTx hcb hall hfetch'
    (CTransaction.getP2SHSigOpCount_congr houts hadded.p2shSigOps) hsig
    (CTransaction.getValueIn_congr houts hadded.valueIn) hadded.valueOut hconnect'
  obtain ⟨hconnected, hnext⟩ := connectTx_eq_ok hd hok
  refine ⟨c', hok, hnext, ?_, ?_, ?_, ?_, ?_⟩
  · exact hadded.origin hcb hd h.origin hu hcandidate
  · intro o ho
    rw [hadded.view hcb hd, hconnected.view, hcrypto]
    refine (h.covers o ho).connect rfl hcb htx.not_coinStake ?_ ?_
    · simpa [readPrev, poolEnv, Env.withPool, InPool, Env.txHash] using hin
    · rw [readPrev_of_readTx hpos]
      exact getOr_eq_ok.mpr hdisk
  · rw [hfees, htx.not_coinStake, hadded.eq, h.nFees]
    rfl
  · rw [hs, hadded.eq]
    exact Nat.add_le_add_right h.nSigOps _
  · rw [hv, all_append, h.vChecks, hchecks]
    rfl

/-- The run lemma. -/
theorem Follows.run (hpicks : Picks m s txs s')
    (fScriptChecks : Bool) : ∀ {c : ConnectState}, Follows m env' pindex taken s c →
      (∀ tx ∈ txs, ∀ txin ∈ tx.vin, txin.prevout.slot ∉ taken) →
      (∀ t ∈ txPositions pindex false c.nTxPos txs, env'.readTx t.1 = some t.2) →
      ∃ c', foldAll (connectTx env' m.db (pindex :: m.pindexPrev) false fScriptChecks) c txs =
          .ok c' ∧
        Follows m env' pindex taken s' c' := by
  induction hpicks with
  | nil s => exact fun {c} h _ _ => ⟨c, rfl, h⟩
  | cons hin hcandidate _ hadd _ ih =>
    intro c h hfree hdisk
    rw [forall_mem_cons] at hfree
    rw [txPositions, forall_mem_cons] at hdisk
    obtain ⟨c₁, hok, hnext, h₁⟩ := h.step hc hu hmem hscripts hcrypto hpos hin
      (mem_candidates hin hcandidate) hadd hfree.1 hdisk.1 fScriptChecks
    obtain ⟨c', hrun, h'⟩ := ih h₁ hfree.2 (by rw [hnext]; exact hdisk.2)
    exact ⟨c', foldAll_cons_eq_ok.mpr ⟨c₁, hok, hrun⟩, h'⟩

end Follows

/-! ## Sizes, sigops and fees of what was picked -/

structure WithinLimits (m : Miner D) (s : Selected) (tx : CTransaction) : Prop where
  size : s.nBlockSize + tx.getSerializeSize < m.args.nBlockMaxSize
  nTime : (tx.nTime.toNat : Int) ≤ m.env.getAdjustedTime
  stakeTime : ∀ txCoinStake ∈ m.txCoinStake, tx.nTime ≤ txCoinStake.nTime

theorem withinLimits_of_isOverLimits (h : m.isOverLimits s tx = false) : WithinLimits m s tx := by
  simp only [isOverLimits, Bool.or_eq_false_iff, decide_eq_false_iff_not, not_le, not_lt] at h
  refine ⟨h.1.1.1, h.1.2, fun txCoinStake hcs => ?_⟩
  have hstake := h.2
  rw [Option.mem_def.mp hcs, Option.any_some, decide_eq_false_iff_not, UInt32.not_lt] at hstake
  exact hstake

theorem Picks.mem (h : Picks m s txs s') :
    ∀ tx ∈ txs, m.InPool tx ∧ tx ∈ m.candidates ∧ (tx.nTime.toNat : Int) ≤ m.env.getAdjustedTime ∧
      ∀ txCoinStake ∈ m.txCoinStake, tx.nTime ≤ txCoinStake.nTime := by
  induction h with
  | nil => simp
  | cons hin hcandidate hlimits _ _ ih =>
    have hl := withinLimits_of_isOverLimits hlimits
    exact forall_mem_cons.mpr ⟨⟨hin, mem_candidates hin hcandidate, hl.nTime, hl.stakeTime⟩, ih⟩

theorem Picks.vtx (h : Picks m s txs s') : s'.vtx = s.vtx ++ txs := by
  induction h with
  | nil => simp
  | cons _ _ _ hadd _ ih =>
    obtain ⟨_, _, _, _, _, hadded⟩ := addTx_eq_some hadd
    rw [ih, hadded.eq]
    simp

theorem Picks.size (h : Picks m s txs s') (hs : s.nBlockSize ≤ m.args.nBlockMaxSize) :
    s.nBlockSize + (txs.map (·.getSerializeSize)).sum ≤ m.args.nBlockMaxSize := by
  induction h with
  | nil => simpa using hs
  | cons _ _ hlimits hadd _ ih =>
    obtain ⟨_, _, _, _, _, hadded⟩ := addTx_eq_some hadd
    have hl := (withinLimits_of_isOverLimits hlimits).size
    rw [hadded.eq] at ih
    have := ih hl.le
    simp only [map_cons, sum_cons] at this ⊢
    omega

theorem Picks.sigOps (h : Picks m s txs s') (hs : s.nBlockSigOps ≤ MAX_BLOCK_SIGOPS) :
    s.nBlockSigOps + (txs.map (·.getLegacySigOpCount)).sum ≤ MAX_BLOCK_SIGOPS := by
  induction h with
  | nil => simpa using hs
  | cons _ _ _ hadd _ ih =>
    obtain ⟨_, _, _, _, _, hadded⟩ := addTx_eq_some hadd
    have hl := hadded.sigOps
    rw [hadded.eq] at ih
    have := ih hl.le
    simp only [map_cons, sum_cons] at this ⊢
    omega

def prevValue (m : Miner D) (o : COutPoint) : Int :=
  (((m.prevTx o.hash).bind fun txPrev => txPrev.vout[o.n.toNat]?).map fun txout =>
    txout.nValue.toInt).getD 0

def poolFee (m : Miner D) (tx : CTransaction) : Int :=
  (tx.vin.map fun txin => m.prevValue txin.prevout).sum - tx.exactValueOut

/-- The fee the template counts is the fee of the transaction, and it is not negative. -/
theorem Added.fee (h : Added m s tx inputs nValueIn nValueOut nP2SHSigOps queue s')
    (ho : m.Origin (NovaCoin.view m.db s.mapTestPool)) (hmem : NotInMemory (index m.db))
    (htx : PoolTx m.env.crypto (m.env.txHash tx) tx) :
    (nValueIn - nValueOut).toInt = m.poolFee tx ∧ 0 ≤ m.poolFee tx := by
  have hcb := htx.not_coinBase
  have hd := CTransaction.nodup_of_checkTransaction htx.checked
  obtain ⟨vChecks, hconnect⟩ := h.connected
  have hf := fetchInputs_eq_ok (by rfl) h.fetched
  obtain ⟨-, -, v, hsum, hamount⟩ := connectInputs_eq_ok (by rfl) hcb hd hf hconnect
  obtain rfl := getValueIn_eq_checkInputs hcb h.valueIn hsum
  have hin : nValueIn.toInt = (tx.vin.map fun txin => m.prevValue txin.prevout).sum := by
    refine checkInputs_sum hsum fun txin htxin txindex txPrev txout hok => ?_
    rw [prevValue, h.prevTx_eq hcb hd ho hmem htxin hok.found, Option.bind_some, hok.vout]
    rfl
  obtain ⟨hout, hrange⟩ := CTransaction.getValueOut_eq_ok h.valueOut
  have hle : nValueOut ≤ nValueIn := by
    rw [checkAmounts, if_neg (by simp [htx.not_coinStake])] at hamount
    exact checkFee_eq_ok hamount h.valueOut
  rw [toInt_sub_of_le hrange hle, hin, hout, poolFee]
  refine ⟨rfl, ?_⟩
  rw [Int64.le_iff_toInt_le] at hle
  omega

section Fees

variable (hc : m.mempool.Checked m.env.crypto) (hu : m.Unconfirmed)
  (hmem : NotInMemory (index m.db))

include hc hu hmem

theorem Picks.poolFee_nonneg (h : Picks m s txs s')
    (ho : m.Origin (NovaCoin.view m.db s.mapTestPool)) : ∀ tx ∈ txs, 0 ≤ m.poolFee tx := by
  induction h with
  | nil => simp
  | cons hin hcandidate _ hadd _ ih =>
    obtain ⟨_, _, _, _, _, hadded⟩ := addTx_eq_some hadd
    have htx := hin.poolTx hc
    have ho₁ := hadded.origin htx.not_coinBase (CTransaction.nodup_of_checkTransaction htx.checked)
      ho hu (mem_candidates hin hcandidate)
    exact forall_mem_cons.mpr ⟨(hadded.fee ho hmem htx).2, ih ho₁⟩

theorem Picks.fees (h : Picks m s txs s') (ho : m.Origin (NovaCoin.view m.db s.mapTestPool))
    (hs : 0 ≤ s.nFees.toInt) (hlt : s.nFees.toInt + (txs.map m.poolFee).sum < 2 ^ 63) :
    s'.nFees.toInt = s.nFees.toInt + (txs.map m.poolFee).sum := by
  induction h with
  | nil => simp
  | @cons s s₁ s' tx txs hin hcandidate _ hadd hrest ih =>
    obtain ⟨inputs, nValueIn, nValueOut, nP2SHSigOps, queue, hadded⟩ := addTx_eq_some hadd
    have htx := hin.poolTx hc
    have ho₁ := hadded.origin htx.not_coinBase (CTransaction.nodup_of_checkTransaction htx.checked)
      ho hu (mem_candidates hin hcandidate)
    obtain ⟨hfee, hpos⟩ := hadded.fee ho hmem htx
    have hrestpos : 0 ≤ (txs.map m.poolFee).sum :=
      sum_nonneg (forall_mem_map.mpr (hrest.poolFee_nonneg hc hu hmem ho₁))
    rw [map_cons, sum_cons] at hlt ⊢
    have hnext : s₁.nFees.toInt = s.nFees.toInt + m.poolFee tx := by
      rw [hadded.eq, ← hfee]
      refine (Int64.toInt_add _ _).trans (Int.bmod_eq_of_le ?_ ?_) <;> omega
    rw [ih ho₁ (by omega) (by omega)]
    omega

end Fees

end Miner

end NovaCoin
