import NovaCoin.Properties.Disconnect
import NovaCoin.Properties.ScriptFlags
import NovaCoin.Spec.Completion

/-!
# Every template is connectable

A template is completed, written to disk and given to `ConnectBlock`. Its coinbase and its coinstake
are connected first; from there on `ConnectBlock` follows the loop of `CreateNewBlock`.

`CreateNewBlock` leaves some things to chance, which the theorem has to ask for. `mapTestPool` does
not know what the coinstake spends, and neither its size nor its sigops are counted; scripts are
verified under the mandatory flags, which do not ask for the lock times that `ConnectBlock` asks for.
-/

namespace NovaCoin

open Guard SpentIndex List Option

/-! ## Lock times -/

/-- If the script check passes, the lock times that `ConnectBlock` asks for are met. -/
def CScriptCheck.LockTimesMet (crypto : Crypto) (check : CScriptCheck) : Prop :=
  ∀ log, check.log crypto = some log →
    (∀ stack, .lockTime stack ∈ log → CHECKLOCKTIMEVERIFY_SWITCH_TIME ≤ check.txTo.nTime →
      (check.context crypto).lockTimeOk stack = true) ∧
    (∀ stack, .sequence stack ∈ log → CHECKSEQUENCEVERIFY_SWITCH_TIME ≤ check.txTo.nTime →
      (check.context crypto).sequenceOk stack = true)

namespace Miner

variable {D : Type} {m : Miner D} {prev : CBlockIndex} {pprev : PIndex}

def LockTimesMet (m : Miner D) : Prop :=
  ∀ tx ∈ m.candidates, ∀ input ∈ tx.vin.zipIdx, ∀ txPrev,
    m.prevTx input.1.prevout.hash = some txPrev →
    (CScriptCheck.new txPrev tx input.1 input.2 MANDATORY_SCRIPT_VERIFY_FLAGS).LockTimesMet
      m.env.crypto

theorem scriptsAgree_of_lockTimesMet (h : m.LockTimesMet) : m.ScriptsAgree := by
  intro tx htx input hinput txPrev hprev hrun
  let check := CScriptCheck.new txPrev tx input.1 input.2 MANDATORY_SCRIPT_VERIFY_FLAGS
  obtain ⟨log, hlog⟩ : ∃ log, check.log m.env.crypto = some log := isSome_iff_exists.mp hrun
  obtain ⟨hlock, hseq⟩ := h tx htx input hinput txPrev hprev log hlog
  exact @verifyScript_connectBlockFlags (check.context m.env.crypto) MANDATORY_SCRIPT_VERIFY_FLAGS
    log _ _ (by decide) hlog (fun _ _ _ _ => sigOk_of_not_strictEnc (by decide) _ _ _) hlock hseq

/-! ## The block on disk -/

/-- The surroundings in which `ConnectBlock` is called: on the same chain and index, with the block
on disk at a new position, as the record `pindex` has it. -/
structure Stored (m : Miner D) (env' : Env) (pindex : CBlockIndex) (b : CBlock) : Prop where
  crypto : env'.crypto = m.env.crypto
  fTestNet : env'.fTestNet = m.env.fTestNet
  onDisk : OnDisk env'.readTx pindex b
  nHeight : ∀ prev ∈ m.pindexPrev.head?, pindex.nHeight = prev.nHeight + 1
  kept : ∀ hash e, index m.db hash = some e → env'.readTx e.pos = m.env.readTx e.pos
  apart : ∀ hash e, index m.db hash = some e →
    ¬(e.pos.nFile = pindex.nFile ∧ e.pos.nBlockPos = pindex.nBlockPos)

theorem Stored.covers {env' : Env} {pindex : CBlockIndex} {b : CBlock} (h : Stored m env' pindex b)
    (hmem : NotInMemory (index m.db)) (hprev : m.pindexPrev = prev :: pprev) (o : COutPoint) :
    Covers m.poolEnv env' m.pindexPrev (pindex :: m.pindexPrev) (index m.db) (index m.db) o := by
  intro e p txPrev he hp hnull hread
  refine ⟨e, p, he, hp, hnull, ?_, ?_⟩
  · have hdisk := readPrev_eq_ok (hmem _ _ he) hread
    rw [readPrev_of_readTx (hmem _ _ he), h.kept _ _ he]
    exact getOr_eq_ok.mpr hdisk
  · have hheight : pindex.nHeight = prev.nHeight + 1 := h.nHeight prev (by rw [hprev]; rfl)
    rw [hprev, isUnripe, isUnripe, h.fTestNet, Bool.and_eq_false_iff, Bool.and_eq_false_iff]
    exact Or.imp_right (isImmature_cons hheight (h.apart _ _ he))

/-! ## The first rounds -/

def taken (m : Miner D) : List (Uint256 × Nat) :=
  m.txCoinStake.toList.flatMap fun txCoinStake => txCoinStake.vin.map (·.prevout.slot)

section FirstRounds

variable {env' : Env} {pindex : CBlockIndex} {pblock b : CBlock}
  {s : Selected} {coinbase txCoinStake : CTransaction} {scriptSig : CScript} {fScriptChecks : Bool}

/-- The coinbase comes first. -/
theorem Filled.connectTx_coinBase (h : Filled m pblock b s coinbase scriptSig)
    (hvalue : moneyRange (m.coinbaseOut pblock.nBits s.nFees).nValue)
    (hfresh : AllSpent (index m.db) (env'.txHash coinbase)) :
    ∃ c, connectTx env' m.db (pindex :: m.pindexPrev) false fScriptChecks (.init pindex b false)
        coinbase = .ok c ∧
      c.nTxPos = nextTxPos false (firstTxPos pindex b false) coinbase ∧
      NovaCoin.view m.db c.mapQueuedChanges = connect (index m.db)
        (coinbase.item env'.crypto ((ConnectState.init pindex b false).pos pindex)) ∧
      c.nFees = 0 ∧ c.nSigOps = (if m.txCoinStake = none then 1 else 0) ∧ c.vChecks = [] := by
  have hsig : coinbase.getLegacySigOpCount = if m.txCoinStake = none then 1 else 0 := by
    rw [h.generation.getLegacySigOpCount, getSigOpCount_coinbaseOut]
  have hle : (ConnectState.init pindex b false).nSigOps + coinbase.getLegacySigOpCount ≤
      MAX_BLOCK_SIGOPS := by
    have hzero : (ConnectState.init pindex b false).nSigOps = 0 := rfl
    rw [hzero, hsig]
    split <;> decide
  obtain ⟨c, hok, hs, hf, hv⟩ := exists_connectTx_coinBase h.generation.isCoinBase hfresh hle
    (h.generation.getValueOut hvalue)
  have hd : (coinbase.vin.map (·.prevout)).Nodup := by
    rw [h.generation.vin]
    exact nodup_singleton _
  obtain ⟨hconnected, hnext⟩ := connectTx_eq_ok hd hok
  refine ⟨c, hok, hnext, ?_, hf, ?_, hv⟩
  · rw [hconnected.view]
    exact congrArg (connect · _) (view_empty m.db)
  · rw [hs, hsig]
    exact Nat.zero_add _

/-- The coinstake is connected over the coinbase, which it does not spend. -/
theorem StakeOk.connectTx (h : StakeOk m env' pindex txCoinStake) {c : ConnectState}
    {t : Item Uint256 CDiskTxPos}
    (hview : NovaCoin.view m.db c.mapQueuedChanges = connect (index m.db) t)
    (hkey : AllSpent (index m.db) t.key) (hspends : t.spends = []) (hsigOps : c.nSigOps = 0)
    (hvChecks : c.vChecks = []) (hcrypto : env'.crypto = m.env.crypto) :
    ∃ c', NovaCoin.connectTx env' m.db (pindex :: m.pindexPrev) false fScriptChecks c txCoinStake =
        .ok c' ∧
      c'.nTxPos = nextTxPos false c.nTxPos txCoinStake ∧
      NovaCoin.view m.db c'.mapQueuedChanges =
        connect (connect (index m.db) t) (txCoinStake.item env'.crypto (c.pos pindex)) ∧
      c'.nFees = c.nFees ∧ c'.nSigOps ≤ 100 ∧ c'.vChecks.all (·.run env'.crypto) := by
  have hcb := h.not_coinBase
  have hd := CTransaction.nodup_of_checkTransaction h.checked
  obtain ⟨inputs, nP2SHSigOps, r, hfetch, hconnect, hp2sh, hsig⟩ := h.connects
  have htransfer : ConnectsLike env' m.db c.mapQueuedChanges
      (blockArgs env' (pindex :: m.pindexPrev) fScriptChecks (c.pos pindex) txCoinStake) txCoinStake
      inputs := by
    refine connectInputs_transfer (by rfl) (by rfl) rfl hcb hd hfetch hconnect ?_ ?_ ?_
    · intro txin _
      rw [hview]
      exact (Covers.refl _ _ _ _).connect_right hkey (by simp [hspends])
    · exact fun _ _ _ _ _ hrun _ => hrun rfl
    · intro v hv
      exact hv
  obtain ⟨inputs', hfetch', houts, queue', vChecks', hconnect', hchecks⟩ := htransfer
  have hfound : ∀ txin ∈ txCoinStake.vin, ∃ txout, getOutputFor inputs' txin = .ok txout := by
    intro txin hin
    obtain ⟨e, txPrev, hfound, hf⟩ := fetchInputs_fetchable (by rfl) hcb hfetch' txin hin
    exact ⟨_, getOutputFor_of_found hfound (getElem?_eq_getElem hf.vout)⟩
  obtain ⟨nValueIn, hin⟩ := CTransaction.exists_getValueIn hfound
  obtain ⟨nValueOut, hout⟩ := CTransaction.exists_getValueOut h.checked
  have hall : AllSpent (index m.db) (env'.txHash txCoinStake) := by
    rw [Env.txHash, hcrypto]
    exact h.fresh.allSpent
  have hle : c.nSigOps + (txCoinStake.getLegacySigOpCount + nP2SHSigOps) ≤ MAX_BLOCK_SIGOPS := by
    rw [hsigOps, Nat.zero_add]
    exact hsig.trans (by decide)
  obtain ⟨c', hok, hs, hf, hv⟩ := exists_connectTx hcb hall hfetch'
    (CTransaction.getP2SHSigOpCount_congr houts hp2sh) hle hin hout hconnect'
  obtain ⟨hconnected, hnext⟩ := connectTx_eq_ok hd hok
  refine ⟨c', hok, hnext, ?_, ?_, ?_, ?_⟩
  · rw [hconnected.view, hview]
  · rw [hf, h.isCoinStake]
    rfl
  · rw [hs, hsigOps, Nat.zero_add]
    exact hsig
  · rw [hv, hvChecks]
    exact hchecks

/-- After the coinbase and the coinstake, `ConnectBlock` is where the template starts. -/
theorem Filled.exists_follows (h : Filled m pblock b s coinbase scriptSig) (hready : m.Ready)
    (hvalue : moneyRange (m.coinbaseOut pblock.nBits s.nFees).nValue)
    (hprev : m.pindexPrev = prev :: pprev) (hdone : Completed m env' pblock b)
    (hstored : Stored m env' pindex b)
    (hstake : ∀ txCoinStake ∈ m.txCoinStake, StakeOk m env' pindex txCoinStake) :
    ∃ c, foldAll (NovaCoin.connectTx env' m.db (pindex :: m.pindexPrev) false fScriptChecks)
        (.init pindex b false) (coinbase :: m.txCoinStake.toList) = .ok c ∧
      Follows m env' pindex m.taken selected c ∧
      ∀ t ∈ txPositions pindex false c.nTxPos s.vtx, env'.readTx t.1 = some t.2 := by
  have hfresh := (hdone.fresh coinbase (by rw [h.vtx]; rfl)).1.allSpent
  have hkey : AllSpent (index m.db) (env'.txHash coinbase) := by
    rw [Env.txHash, hstored.crypto]
    exact hfresh
  obtain ⟨c, hok, hnext, hview, hfees, hsig, hvChecks⟩ := h.connectTx_coinBase hvalue hkey
  let item := coinbase.item env'.crypto ((ConnectState.init pindex b false).pos pindex)
  have hspends : item.spends = [] := CTransaction.item_spends_of_isCoinBase h.generation.isCoinBase
  have hcovers : ∀ o : COutPoint, Covers m.poolEnv env' m.pindexPrev (pindex :: m.pindexPrev)
      (index m.db) (connect (index m.db) item) o := fun o =>
    (hstored.covers hready.notInMemory hprev o).connect_right hkey (by simp [hspends])
  have hdisk := hstored.onDisk.readTx
  rw [CBlock.stored, h.vtx] at hdisk
  cases hcs : m.txCoinStake with
  | none =>
    rw [hcs] at hsig
    rw [hcs, toList_none, txPositions, forall_mem_cons, ← hnext] at hdisk
    refine ⟨c, foldAll_cons_eq_ok.mpr ⟨c, hok, rfl⟩, ⟨?_, ?_, hfees, ?_, ?_⟩, hdisk.2⟩
    · exact origin_index
    · intro o _
      rw [hview]
      exact hcovers o
    · rw [hsig]
      decide
    · rw [hvChecks]
      rfl
  | some txCoinStake =>
    have hok' := hstake txCoinStake hcs
    rw [hcs] at hsig
    obtain ⟨c', hround, hnext', hview', hfees', hsig', hvChecks'⟩ :=
      hok'.connectTx hview hkey hspends hsig hvChecks hstored.crypto
    rw [hcs, toList_some, singleton_append, txPositions, forall_mem_cons, ← hnext,
      txPositions, forall_mem_cons, ← hnext'] at hdisk
    refine ⟨c', foldAll_cons_eq_ok.mpr ⟨c, hok, foldAll_cons_eq_ok.mpr ⟨c', hround, rfl⟩⟩,
      ⟨?_, ?_, ?_, hsig', hvChecks'⟩, hdisk.2.2⟩
    · exact origin_index
    · intro o ho
      rw [hview']
      refine (hcovers o).connect_right ?_ ?_
      · have hall := hok'.fresh.allSpent
        rw [Env.txHash, ← hstored.crypto] at hall
        exact hall
      · rw [CTransaction.item_spends hok'.not_coinBase]
        simpa [taken, hcs] using ho
    · rw [hfees', hfees]
      rfl

end FirstRounds

/-- What the template does not look at when it adds a candidate: lock times, and the outpoints of the
coinstake. -/
structure NoConflict (m : Miner D) : Prop where
  lockTimes : m.LockTimesMet
  outpoints : ∀ txCoinStake ∈ m.txCoinStake, ∀ tx ∈ m.candidates, ∀ txin ∈ tx.vin,
    txin.prevout ∉ txCoinStake.vin.map (·.prevout)

theorem NoConflict.not_mem_taken (h : m.NoConflict) {tx : CTransaction} (htx : tx ∈ m.candidates) :
    ∀ txin ∈ tx.vin, txin.prevout.slot ∉ m.taken := by
  intro txin htxin hmem
  obtain ⟨txCoinStake, hcs, hslot⟩ := mem_flatMap.mp hmem
  obtain ⟨txin', htxin', he⟩ := mem_map.mp hslot
  refine h.outpoints txCoinStake (mem_toList.mp hcs) tx htx txin htxin ?_
  rw [← COutPoint.slot_injective he]
  exact mem_map_of_mem htxin'

/-- The coinbase pays no more than the reward and the fees `ConnectBlock` has counted. -/
theorem Filled.checkCoinbaseReward {env' : Env} {pindex : CBlockIndex} {pblock b : CBlock}
    {txs : List CTransaction} {s : Selected} {coinbase : CTransaction} {scriptSig : CScript}
    (h : Filled m pblock b s coinbase scriptSig) (hc : m.mempool.Checked m.env.crypto)
    (ht : IsTemplate m prev pblock txs s)
    (hvalue : moneyRange (m.coinbaseOut pblock.nBits s.nFees).nValue)
    (hnet : env'.fTestNet = m.env.fTestNet)
    (hstake : ∀ txCoinStake ∈ m.txCoinStake, StakeOk m env' pindex txCoinStake) :
    NovaCoin.checkCoinbaseReward env' b s.nFees = .ok () := by
  rw [NovaCoin.checkCoinbaseReward, CBlock.isProofOfWork, h.isProofOfStake hc ht hstake,
    fProofOfStake]
  cases hcs : m.txCoinStake with
  | some txCoinStake => rfl
  | none =>
    refine bind_eq_ok.mpr ⟨coinbase, by rw [h.vtx]; rfl, ?_⟩
    refine bind_eq_ok.mpr ⟨_, h.generation.getValueOut hvalue, ?_⟩
    have hout : (m.coinbaseOut pblock.nBits s.nFees).nValue =
        getProofOfWorkReward env'.fTestNet b.nBits + s.nFees := by
      rw [coinbaseOut, hcs, hnet, h.nBits]
    rw [hout]
    exact if_pos (decide_eq_true (Int64.le_refl _))

end Miner

def sampleDoubles : Doubles Int :=
  ⟨id, (· + ·), (· * ·), (· / ·), fun a b => decide (a < b), fun a b => decide (a = b)⟩

def sampleHeap (α : Type) : StdHeap α where
  make comparer l := l.insertionSort fun a b => comparer a b = false
  push comparer l a := l.orderedInsert (fun a b => comparer a b = false) a
  pop _ l := l.tail
  make_perm _ l := perm_insertionSort _ l
  push_perm _ l a := perm_orderedInsert _ a l
  pop_perm _ _ l := List.Perm.refl l

def coinsTx (scriptPubKey : CScript) : CTransaction :=
  { sampleTx [⟨⟨7, 0⟩, [], 0xffffffff⟩] [] with vout := [⟨COIN, scriptPubKey⟩, ⟨COIN, [0x51]⟩] }

def coinsPos : CDiskTxPos := ⟨1, 100, 181⟩

def coinsEnv (coins : CTransaction) (disk : CDiskTxPos → Option CTransaction) : Env :=
  { Env.sample with
    readTx := fun pos => if pos = coinsPos then some coins else disk pos
    readBlockHeader := fun _ _ => some { CBlock.null with nTime := 1599999000 } }

def coinsSpend (coins : CTransaction) (n : UInt32) : CTransaction :=
  sampleTx [sampleSpend coins n] [COIN - CENT]

def coinsStake (coins : CTransaction) : CTransaction :=
  ⟨1, 1600000000, [sampleSpend coins 0], [CTxOut.empty, ⟨COIN, [0x51]⟩], 0⟩

def coinsMiner (coins tx : CTransaction) (txCoinStake : Option CTransaction) : Miner Int where
  env := coinsEnv coins fun _ => none
  ops := sampleDoubles
  heap := sampleHeap _
  args := {}
  db := Finmap.singleton (Crypto.sample.txHash coins) (CTxIndex.new coinsPos 2)
  pindexPrev := [sampleIndex 0 8]
  mempool := CTxMemPool.empty.addUnchecked (Crypto.sample.txHash tx) tx
  keyID := ⟨List.replicate 20 7, rfl⟩
  txCoinStake := txCoinStake

def coinsTemplate (coins tx : CTransaction) (txCoinStake : Option CTransaction) : CBlock :=
  let m := coinsMiner coins tx txCoinStake
  let nBits := getNextTargetRequired true m.pindexPrev m.fProofOfStake
  { CBlock.null with
    hashPrevBlock := 1
    nTime := 1600000000
    nBits
    vtx := m.txCoinBase nBits CENT :: (txCoinStake.toList ++ [tx]) }

def coinsBlock (coins tx : CTransaction) (txCoinStake : Option CTransaction) : CBlock :=
  let b := (coinsTemplate coins tx txCoinStake).setCoinbaseScript [0x51, 0x01, 0x01]
  { b with hashMerkleRoot := buildMerkleTree Crypto.sample b }

def coinsIndex : CBlockIndex := sampleIndex 1 500

def coinsEnvWith (coins tx : CTransaction) (txCoinStake : Option CTransaction) : Env :=
  coinsEnv coins (sampleDisk [(coinsIndex, coinsBlock coins tx txCoinStake)])

section Coins

variable {coins tx : CTransaction} {txCoinStake : Option CTransaction} {hash : Uint256}

theorem index_coins {e : CTxIndex} (h : index (coinsMiner coins tx txCoinStake).db hash = some e) :
    e = CTxIndex.new coinsPos 2 := by
  by_cases hk : hash = Crypto.sample.txHash coins
  · rw [index, hk, coinsMiner, Finmap.lookup_singleton_eq] at h
    exact (some.inj h).symm
  · rw [index, coinsMiner,
      Finmap.lookup_eq_none.mpr (by simpa [Finmap.mem_singleton] using hk)] at h
    cases h

theorem allSpent_coins (h : hash ≠ Crypto.sample.txHash coins) :
    AllSpent (index (coinsMiner coins tx txCoinStake).db) hash := by
  refine allSpent_of_none ?_
  rw [index, coinsMiner, Finmap.lookup_eq_none, Finmap.mem_singleton]
  exact h

theorem coins_fresh (hcoins : hash ≠ Crypto.sample.txHash coins)
    (htx : hash ≠ Crypto.sample.txHash tx) : (coinsMiner coins tx txCoinStake).FreshTxid hash where
  allSpent := allSpent_coins hcoins
  notInPool := AList.lookup_insert_ne htx

theorem coins_reachable (h : ∃ pool, CTxMemPool.empty.accept (coinsEnv coins fun _ => none)
      ⟨fun _ => none, fun _ _ => true, fun _ => false⟩ (coinsMiner coins tx txCoinStake).db
      [sampleIndex 0 8] tx true = .ok pool) :
    CTxMemPool.Reachable Crypto.sample (coinsMiner coins tx txCoinStake).mempool := by
  obtain ⟨pool, hok⟩ := h
  obtain ⟨-, rfl⟩ := CTxMemPool.accept_eq_ok hok
  exact .accept _ _ _ _ tx true rfl .empty hok

theorem coins_completed
    (hnonce : incrementExtraNonce Crypto.sample [] [sampleIndex 0 8] (0, 0)
      (coinsTemplate coins tx txCoinStake) = some (coinsBlock coins tx txCoinStake, 1, 1))
    (hwork : checkProofOfWork true 0 (coinsBlock coins tx txCoinStake).nBits)
    (hfresh : ∀ coinbase ∈ (coinsBlock coins tx txCoinStake).vtx.head?,
      Crypto.sample.txHash coinbase ≠ Crypto.sample.txHash coins ∧
      Crypto.sample.txHash coinbase ≠ Crypto.sample.txHash tx ∧
      ∀ cs ∈ txCoinStake, Crypto.sample.txHash cs ≠ Crypto.sample.txHash coinbase) :
    (coinsMiner coins tx txCoinStake).Completed (coinsEnvWith coins tx txCoinStake)
      (coinsTemplate coins tx txCoinStake) (coinsBlock coins tx txCoinStake) where
  extraNonce := ⟨[], (0, 0), _, (1, 1), hnonce, rfl⟩
  vchBlockSig := show 0 < 253 by decide
  work _ := ⟨hwork, UInt32.le_refl _, show (1600000000 : Int) ≤ futureDrift 1600000000 by decide⟩
  stake _ := ⟨rfl, rfl⟩
  fresh coinbase hcb := ⟨coins_fresh (hfresh coinbase hcb).1 (hfresh coinbase hcb).2.1,
    (hfresh coinbase hcb).2.2⟩

theorem coins_stored
    (hdisk : ∀ t ∈ (coinsBlock coins tx txCoinStake).stored coinsIndex,
      (coinsEnvWith coins tx txCoinStake).readTx t.1 = some t.2) :
    (coinsMiner coins tx txCoinStake).Stored (coinsEnvWith coins tx txCoinStake) coinsIndex
      (coinsBlock coins tx txCoinStake) where
  crypto := rfl
  fTestNet := rfl
  onDisk := ⟨by decide, by decide, hdisk⟩
  nHeight prev hprev := by
    cases hprev
    rfl
  kept _ e he := by
    rw [index_coins he]
    rfl
  apart _ e he := by
    rw [index_coins he]
    decide

theorem coins_stakeOk {cs : CTransaction} (hstake : cs.isCoinStake)
    (hchecked : cs.checkTransaction = .ok ())
    (hfresh : Crypto.sample.txHash cs ≠ Crypto.sample.txHash coins ∧
      Crypto.sample.txHash cs ≠ Crypto.sample.txHash tx)
    (hconnects : ∃ inputs, fetchInputs (coinsEnvWith coins tx txCoinStake)
        (coinsMiner coins tx txCoinStake).db ∅ true false cs = .ok inputs ∧
      ∃ r, connectInputs (coinsEnvWith coins tx txCoinStake) (coinsMiner coins tx txCoinStake).db inputs
        ∅ ((coinsMiner coins tx txCoinStake).stakeArgs coinsIndex cs) cs = .ok r ∧
      ∃ nP2SHSigOps, cs.getP2SHSigOpCount inputs = .ok nP2SHSigOps ∧
        cs.getLegacySigOpCount + nP2SHSigOps ≤ 100) :
    (coinsMiner coins tx txCoinStake).StakeOk (coinsEnvWith coins tx txCoinStake) coinsIndex
      cs where
  isCoinStake := hstake
  checked := hchecked
  fresh := coins_fresh hfresh.1 hfresh.2
  connects := by
    obtain ⟨inputs, hfetch, r, hconnect, nP2SHSigOps, hp2sh, hsig⟩ := hconnects
    exact ⟨inputs, nP2SHSigOps, r, hfetch, hconnect, hp2sh, hsig⟩

end Coins

def stakeMiner : Miner Int :=
  coinsMiner (coinsTx [0x51]) (coinsSpend (coinsTx [0x51]) 1) (some (coinsStake (coinsTx [0x51])))

theorem txs_stakeMiner : stakeMiner.mempool.txs = [coinsSpend (coinsTx [0x51]) 1] := by
  decide +kernel

theorem candidates_stakeMiner : stakeMiner.candidates = [coinsSpend (coinsTx [0x51]) 1] := by
  decide +kernel

theorem stakeMiner_ready : stakeMiner.Ready where
  resolved := by
    rw [Miner.Resolved, txs_stakeMiner, forall_mem_singleton]
    refine fun _ => .inl fun txin htxin => .inl ?_
    rw [coinsSpend, sampleTx, mem_singleton] at htxin
    subst htxin
    decide +kernel
  unconfirmed := by
    rw [Miner.Unconfirmed, candidates_stakeMiner, forall_mem_singleton]
    exact .inl (by decide +kernel)
  notInMemory _ e he := by
    rw [index_coins he]
    decide
  clock_nonneg := by decide
  clock_lt := by decide

theorem stakeMiner_hasRoom : stakeMiner.HasRoom where
  stakeSize cs hcs := by
    cases hcs
    decide +kernel
  fees hnone := by cases hnone

theorem stakeMiner_noConflict : stakeMiner.NoConflict where
  lockTimes := by
    rw [Miner.LockTimesMet, candidates_stakeMiner, forall_mem_singleton]
    intro input hinput txPrev hprev log hlog
    rw [coinsSpend, sampleTx, zipIdx_singleton, mem_singleton] at hinput
    subst hinput
    have hcoins : stakeMiner.prevTx (sampleSpend (coinsTx [0x51]) 1).prevout.hash =
        some (coinsTx [0x51]) := by decide +kernel
    obtain rfl := some.inj (hcoins.symm.trans hprev)
    have hempty : (CScriptCheck.new (coinsTx [0x51]) (coinsSpend (coinsTx [0x51]) 1)
        (sampleSpend (coinsTx [0x51]) 1) 0 MANDATORY_SCRIPT_VERIFY_FLAGS).log Crypto.sample =
          some [] := by
      decide +kernel
    obtain rfl := some.inj (hempty.symm.trans hlog)
    simp
  outpoints cs hcs := by
    cases hcs
    rw [candidates_stakeMiner, forall_mem_singleton]
    decide +kernel

def Miner.RefusedWith {D : Type} (m : Miner D) (e : Reject) : Prop :=
  CTxMemPool.Reachable m.env.crypto m.mempool ∧
    ∃ pblock env' pindex b, m.createNewBlock = .ok pblock ∧ m.Completed env' pblock b ∧
      m.Stored env' pindex b ∧ (∀ txCoinStake ∈ m.txCoinStake, m.StakeOk env' pindex txCoinStake) ∧
      connectBlock env' m.db pindex m.pindexPrev b false = .error e

def conflictMiner : Miner Int :=
  coinsMiner (coinsTx [0x51]) (coinsSpend (coinsTx [0x51]) 0) (some (coinsStake (coinsTx [0x51])))

/-- The pool has a transaction with lock time 0 whose output asks for 1 (`CHECKLOCKTIMEVERIFY`). -/
def lockedMiner : Miner Int :=
  coinsMiner (coinsTx [0x51, 0xb1]) (coinsSpend (coinsTx [0x51, 0xb1]) 0) none

theorem conflictMiner_refused :
    conflictMiner.RefusedWith (.error "ConnectInputs() : prev tx already used") := by
  refine ⟨coins_reachable (by decide +kernel), _, _, coinsIndex, _, ?_,
    coins_completed (by decide +kernel) (by decide +kernel) (by decide +kernel),
    coins_stored (by decide +kernel), ?_, ?_⟩
  · decide +kernel
  · intro cs hcs
    cases hcs
    exact coins_stakeOk (by decide +kernel) (by decide +kernel) (by decide +kernel)
      (by decide +kernel)
  · decide +kernel

theorem lockedMiner_refused :
    lockedMiner.RefusedWith ⟨100, "ConnectInputs() : VerifySignature failed"⟩ := by
  refine ⟨coins_reachable (by decide +kernel), _, _, coinsIndex, _, ?_,
    coins_completed (by decide +kernel) (by decide +kernel) (by decide +kernel),
    coins_stored (by decide +kernel), ?_, ?_⟩
  · decide +kernel
  · exact fun cs hcs => by cases hcs
  · decide +kernel

end NovaCoin
