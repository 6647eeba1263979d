import NovaCoin.Properties.Disconnect

/-!
# Money supply and inflation

`ConnectBlock` adds up inputs, outputs and fees in 64 bits without looking at overflows. Modulo
2^64 the sums are right, so `nMoneySupply` is the value of the unspent outputs of the index
(`moneySupply_eq_unspent`). The limit on the coinbase of a proof of work holds for the exact amounts:
a sum of fees that wraps around only makes it smaller (`coinbase_le_reward_add_fees`).
-/

namespace NovaCoin

open Guard SpentIndex List

/-! ## Running sums -/

/-- `MAX_MONEY` is the largest number of 64 bits, so a sum out of range shows by its sign only.
That is enough: no sum of a prefix that wraps around passes. -/
theorem running_sums_exact (env : Env) (args : ConnectArgs) (tx : CTransaction)
    (inputs : MapPrevTx) :
    AddsUp tx.OutputsUsable (tx.vout.map (·.nValue)) (foldAll tx.checkOutput 0 tx.vout) ∧
    AddsUp True (tx.vout.map (·.nValue)) tx.getValueOut ∧
    AddsUp (∀ txin ∈ tx.vin, InputUsable env args tx inputs txin)
      (tx.vin.map (inputValue inputs)) (foldAll (checkInput env args tx inputs) 0 tx.vin) := by
  refine ⟨tx.addsUp_checkOutputs, ?_, addsUp_checkInputs env args tx inputs⟩
  simpa only [implies_true] using tx.addsUp_getValueOut

/-! ## The limit on the coinbase -/

variable {vtx : List CTransaction} {crypto : Crypto} {disk : CDiskTxPos → Option CTransaction}

section BlockSum

variable {pindex : CBlockIndex} {fJustCheck : Bool}

theorem blockSum_congr {f g : Index Uint256 CDiskTxPos → CTransaction → Int}
    (h : ∀ tx ∈ vtx, ∀ idx, f idx tx = g idx tx) :
    ∀ (idx : Index Uint256 CDiskTxPos) (nTxPos : UInt32),
      blockSum crypto pindex fJustCheck f idx nTxPos vtx =
        blockSum crypto pindex fJustCheck g idx nTxPos vtx := by
  induction vtx with
  | nil => exact fun _ _ => rfl
  | cons tx vtx ih =>
    intro idx nTxPos
    rw [forall_mem_cons] at h
    rw [blockSum, blockSum, h.1, ih h.2]

end BlockSum

theorem toInt_ofInt_le {x : Int} (h : -2 ^ 63 ≤ x) : (Int64.ofInt x).toInt ≤ x := by
  rw [Int64.toInt_ofInt, Int.bmod_def]
  simp only [Int64.size]
  split <;> omega

/-- The outputs of the coinbase of a proof-of-work block are worth no more than the reward and the
fees, as exact amounts. -/
theorem coinbase_le_reward_add_fees (env : Env) (db db' : TxDB) (pindex pindex' : CBlockIndex)
    (pprev : PIndex) (b : CBlock) (fJustCheck : Bool)
    (h : connectBlock env db pindex pprev b fJustCheck = .ok (db', pindex'))
    (hw : b.isProofOfWork = true) :
    ∃ coinbase rest, b.vtx = coinbase :: rest ∧
      coinbase.exactValueOut ≤ (getProofOfWorkReward env.fTestNet b.nBits).toInt +
        blockSum env.crypto pindex fJustCheck
          (fun idx tx => tx.exactValueIn env idx - tx.exactValueOut)
          (connect (index db) (coinbase.item env.crypto
            ⟨pindex.nFile, pindex.nBlockPos, firstTxPos pindex b fJustCheck⟩))
          (nextTxPos fJustCheck (firstTxPos pindex b fJustCheck) coinbase) rest := by
  obtain ⟨coinbase, rest, s, hb, hr, hreward, -, -⟩ := connectBlock_eq_ok h
  refine ⟨coinbase, rest, hb.vtx, ?_⟩
  -- the comparison `ConnectBlock` makes
  rw [checkCoinbaseReward, if_pos hw, hb.vtx] at hreward
  obtain ⟨_, hhead, hreward⟩ := bind_eq_ok.mp hreward
  cases hhead
  obtain ⟨v, hv, hreward⟩ := bind_eq_ok.mp hreward
  rw [require_eq_ok, decide_eq_true_eq, Int64.le_iff_toInt_le,
    (CTransaction.getValueOut_eq_ok hv).1] at hreward
  -- the fees it has added up
  obtain ⟨-, -, hfees, hpos⟩ := hr.amounts
  rw [hb.vtx] at hfees hpos
  simp only [ConnectState.init, view_empty, blockSum] at hfees hpos
  have hzero : ∀ idx, coinbase.exactFee env idx = 0 := by simp [CTransaction.exactFee, hb.coinbase]
  have hrest : ∀ tx ∈ rest, ∀ idx, tx.exactFee env idx = tx.exactValueIn env idx - tx.exactValueOut := by
    intro tx htx idx
    simp [CTransaction.exactFee, hb.not_coinBase tx htx, hb.not_coinStake hw tx htx]
  rw [hzero, Int.zero_add, blockSum_congr hrest] at hfees hpos
  rw [hfees, Int64.zero_add, ← Int64.ofInt_toInt (getProofOfWorkReward _ _),
    ← Int64.ofInt_add] at hreward
  refine hreward.trans (toInt_ofInt_le ?_)
  have hlow := (getProofOfWorkReward env.fTestNet b.nBits).le_toInt
  omega

/-- The bound for a block with two spending transactions. -/
theorem spendingBlock_coinbase_le : ∃ coinbase rest, spendingBlock.vtx = coinbase :: rest ∧
    coinbase.exactValueOut ≤ (getProofOfWorkReward true 0x1e0fffff).toInt +
      blockSum Crypto.sample (sampleIndex 1 500) false
        (fun idx tx => tx.exactValueIn spendingEnv idx - tx.exactValueOut)
        (connect (index fundingDb) (coinbase.item Crypto.sample
          ⟨1, 500, firstTxPos (sampleIndex 1 500) spendingBlock false⟩))
        (nextTxPos false (firstTxPos (sampleIndex 1 500) spendingBlock false) coinbase) rest := by
  obtain ⟨⟨db', pindex'⟩, h⟩ := exists_connect_spendingBlock
  exact coinbase_le_reward_add_fees spendingEnv fundingDb db' (sampleIndex 1 500) pindex' []
    spendingBlock false h (by decide +kernel)

/-! ## Money supply -/

/-- The value of output `n` of the transaction at a position, by what is on disk. -/
def diskValue (disk : CDiskTxPos → Option CTransaction) (pos : CDiskTxPos) (n : Nat) : Int :=
  (((disk pos).bind fun tx => tx.vout[n]?).map fun txout => txout.nValue.toInt).getD 0

def unspentTotal (disk : CDiskTxPos → Option CTransaction) (db : TxDB) : Int :=
  total (diskValue disk) db.keys (index db)

/-- A chain of blocks connected one after the other. Block files only grow: what is found at a step
is there at the end. -/
inductive Accepted (crypto : Crypto) (disk : CDiskTxPos → Option CTransaction) (base : PIndex) :
    TxDB → Chain → Prop
  | genesis : Accepted crypto disk base ∅ []
  | connect {db db' : TxDB} {chain : Chain} {env : Env} {pindex pindex' : CBlockIndex} {b : CBlock}
      (accepted : Accepted crypto disk base db chain) (henv : env.crypto = crypto)
      (hdisk : ∀ pos tx, env.readTx pos = some tx → disk pos = some tx)
      (stored : OnDisk disk pindex b)
      (ok : connectBlock env db pindex (chain.pindex base) b false = .ok (db', pindex')) :
      Accepted crypto disk base db' ((pindex', b) :: chain)

section Supply

variable {base : PIndex} {db : TxDB} {chain : Chain}

theorem Accepted.reachable (h : Accepted crypto disk base db chain) :
    Reachable crypto base db chain := by
  induction h with
  | genesis => exact .empty
  | connect _ henv _ hstored hok ih => exact .connect ih henv hstored.nFile hok

theorem Accepted.notInMemory (h : Accepted crypto disk base db chain) : NotInMemory (index db) := by
  have htxs : ∀ t ∈ chain.txs, t.1.nBlockPos ≠ 1 := by
    induction h with
    | genesis => simp [Chain.txs]
    | @connect _ _ _ _ pindex pindex' b _ _ _ hstored hok ih =>
      intro t ht
      rw [Chain.txs, flatMap_cons, mem_append, mem_reverse] at ht
      rcases ht with ht | ht
      · rw [(items_of_connectBlock hok crypto).2] at ht
        rw [stored_nBlockPos t ht]
        exact hstored.nBlockPos
      · exact ih t ht
  intro hash e he
  obtain ⟨u, hu, hpos, -⟩ := h.reachable.agrees.find_key he
  obtain ⟨t, ht, rfl⟩ := mem_map.mp (mem_of_find?_eq_some hu)
  rw [hpos]
  exact htxs t ht

end Supply

/-! ### What a block adds -/

section Flow

variable {env : Env} {idx : Index Uint256 CDiskTxPos} {tx : CTransaction}

/-- The value `ConnectInputs` reads for an input is the one on disk. -/
theorem valueOf_eq_prevValue (hdisk : ∀ pos tx, env.readTx pos = some tx → disk pos = some tx)
    (hidx : NotInMemory idx) {o : COutPoint} (h : (prevOut env idx o).isSome) :
    valueOf (diskValue disk) idx o.slot = (prevValue env idx o).toInt := by
  obtain ⟨txout, hout⟩ := Option.isSome_iff_exists.mp h
  rw [prevValue, hout]
  obtain ⟨e, he, hout⟩ := Option.bind_eq_some_iff.mp hout
  obtain ⟨txPrev, hread, hout⟩ := Option.bind_eq_some_iff.mp hout
  have hprev : readPrev env o.hash (some e.pos) = .ok txPrev := by
    cases hr : readPrev env o.hash (some e.pos) with
    | error _ =>
      rw [hr] at hread
      cases hread
    | ok t =>
      rw [hr] at hread
      cases hread
      rfl
  have hd := hdisk _ _ (readPrev_eq_ok (hidx _ _ he) hprev)
  simp [valueOf, COutPoint.slot, he, diskValue, hd, hout]

theorem sum_diskValue {pos : CDiskTxPos} (h : disk pos = some tx) :
    ∑ n ∈ Finset.range tx.vout.length, diskValue disk pos n = tx.exactValueOut := by
  have hlist : ∀ vout : List CTxOut, ∑ n ∈ Finset.range vout.length,
      ((vout[n]?).map fun txout => txout.nValue.toInt).getD 0 =
        (vout.map fun txout => txout.nValue.toInt).sum := by
    intro vout
    induction vout with
    | nil => rfl
    | cons txout vout ih =>
      rw [length_cons, Finset.sum_range_succ', map_cons, sum_cons, ← ih]
      simp [add_comm]
  rw [CTransaction.exactValueOut, ← hlist]
  simp [diskValue, h]

theorem sum_valueOf_spends (pos : CDiskTxPos)
    (hdisk : ∀ pos tx, env.readTx pos = some tx → disk pos = some tx) (hidx : NotInMemory idx)
    (h : ∀ o ∈ tx.spends, (prevOut env idx o).isSome) :
    ((tx.item env.crypto pos).spends.map (valueOf (diskValue disk) idx)).sum =
      tx.exactValueIn env idx := by
  rw [CTransaction.item, map_map]
  congr 1
  exact map_congr_left fun o ho => valueOf_eq_prevValue hdisk hidx (h o ho)

/-- What a block adds to the unspent value is its outputs less its inputs, round by round. -/
theorem Rounds.flow_eq {db : TxDB} {pindex : CBlockIndex} {s s' : ConnectState}
    (h : Rounds env db pindex false s vtx s')
    (hdisk : ∀ pos tx, env.readTx pos = some tx → disk pos = some tx)
    (hblock : pindex.nBlockPos ≠ 1)
    (hread : ∀ t ∈ txPositions pindex false s.nTxPos vtx, disk t.1 = some t.2)
    (hidx : NotInMemory (NovaCoin.view db s.mapQueuedChanges)) :
    flow (diskValue disk) (NovaCoin.view db s.mapQueuedChanges)
        (blockItems env.crypto pindex false s.nTxPos vtx) =
      blockSum env.crypto pindex false (fun _ tx => tx.exactValueOut)
          (NovaCoin.view db s.mapQueuedChanges) s.nTxPos vtx -
        blockSum env.crypto pindex false (fun idx tx => tx.exactValueIn env idx)
          (NovaCoin.view db s.mapQueuedChanges) s.nTxPos vtx := by
  induction h with
  | nil => rfl
  | @cons s s₁ s' tx vtx hc hp _ _ ih =>
    rw [txPositions, forall_mem_cons] at hread
    have hidx' : NotInMemory (NovaCoin.view db s₁.mapQueuedChanges) := by
      intro hash e he
      rw [hc.view] at he
      rcases pos_connect he with hpos | ⟨e', he', hpos⟩
      · rw [hpos]
        exact hblock
      · rw [hpos]
        exact hidx hash e' he'
    have htail := ih (by rw [hp]; exact hread.2) hidx'
    rw [hc.view, hp] at htail
    have hout : ∑ n ∈ Finset.range tx.vout.length, diskValue disk (s.pos pindex) n =
        tx.exactValueOut := sum_diskValue hread.1
    have hin := sum_valueOf_spends (s.pos pindex) hdisk hidx hc.resolved
    rw [blockItems_cons, blockSum, blockSum]
    show (∑ n ∈ Finset.range tx.vout.length, diskValue disk (s.pos pindex) n) -
      ((tx.item env.crypto (s.pos pindex)).spends.map _).sum + flow (diskValue disk)
        (connect (NovaCoin.view db s.mapQueuedChanges) (tx.item env.crypto (s.pos pindex))) _ = _
    rw [hout, hin, htail]
    simp only [ConnectState.pos]
    ring

end Flow

theorem mem_keys_iff {db : TxDB} {hash : Uint256} : hash ∈ db.keys ↔ (index db hash).isSome := by
  rw [Finmap.mem_keys, index, Finmap.lookup_isSome]

/-- Connecting a block adds its outputs to the unspent total and takes its inputs away. -/
theorem unspentTotal_connectBlock {env : Env} {db db' : TxDB} {pindex pindex' : CBlockIndex}
    {pprev : PIndex} {b : CBlock}
    (h : connectBlock env db pindex pprev b false = .ok (db', pindex'))
    (hdisk : ∀ pos tx, env.readTx pos = some tx → disk pos = some tx)
    (hstored : OnDisk disk pindex b) (hidx : NotInMemory (index db)) :
    unspentTotal disk db' = unspentTotal disk db +
      blockSum env.crypto pindex false (fun _ tx => tx.exactValueOut) (index db)
        (firstTxPos pindex b false) b.vtx -
      blockSum env.crypto pindex false (fun idx tx => tx.exactValueIn env idx) (index db)
        (firstTxPos pindex b false) b.vtx := by
  obtain ⟨-, hc, hi⟩ := connectBlock_index h
  obtain ⟨_, _, s, -, hr, -, -, -⟩ := connectBlock_eq_ok h
  have hflow := hr.flow_eq hdisk hstored.nBlockPos hstored.readTx
    (by simpa [ConnectState.init] using hidx)
  simp only [ConnectState.init, view_empty] at hflow
  have hkeys : ∀ hash, (connectAll (index db) (b.items env.crypto pindex) hash).isSome →
      hash ∈ db'.keys := by
    intro hash hs
    rw [mem_keys_iff, hi]
    exact hs
  have hsubset : db.keys ⊆ db'.keys := by
    intro hash hm
    exact hkeys hash (isSome_connectAll _ (mem_keys_iff.mp hm))
  rw [unspentTotal, unspentTotal, hi, total_connectAll _ hc (items_pos hstored.nFile) hkeys,
    total_eq_of_subset _ hsubset fun hash hs => mem_keys_iff.mpr hs]
  rw [show flow (diskValue disk) (index db) (b.items env.crypto pindex) = _ from hflow]
  ring

/-- Along every chain of connected blocks, `nMoneySupply` of the tip is the value of the unspent
outputs, and a block connected to it has as its `nMint` its outputs less its inputs plus the fees of
its ordinary transactions; all modulo 2^64. -/
theorem moneySupply_eq_unspent (crypto : Crypto) (disk : CDiskTxPos → Option CTransaction)
    (base : PIndex) (hbase : (base.head?.map (·.nMoneySupply)).getD 0 = 0) (db : TxDB)
    (chain : Chain) (h : Accepted crypto disk base db chain) :
    ((chain.pindex base).head?.map (·.nMoneySupply)).getD 0 = Int64.ofInt (unspentTotal disk db) ∧
      ∀ env pindex pindex' b db', env.crypto = crypto →
        connectBlock env db pindex (chain.pindex base) b false = .ok (db', pindex') →
        let sum := fun f => blockSum crypto pindex false f (index db) (firstTxPos pindex b false) b.vtx
        pindex'.nMint = Int64.ofInt ((sum fun _ tx => tx.exactValueOut) -
          (sum fun idx tx => tx.exactValueIn env idx) +
          sum fun idx tx => if tx.isCoinBase || tx.isCoinStake then 0
            else tx.exactValueIn env idx - tx.exactValueOut) := by
  constructor
  · induction h with
    | genesis => exact hbase
    | @connect db db' chain env pindex pindex' b haccepted henv hdisk hstored hok ih =>
      rw [unspentTotal_connectBlock hok hdisk hstored haccepted.notInMemory]
      obtain ⟨_, _, s, -, hr, -, -, rfl⟩ := connectBlock_eq_ok hok
      obtain ⟨hout, hin, -, -⟩ := hr.amounts
      simp only [ConnectState.init, view_empty, Int64.zero_add] at hout hin
      show ((chain.pindex base).head?.map (·.nMoneySupply)).getD 0 + s.nValueOut - s.nValueIn = _
      rw [ih, hout, hin, Int64.ofInt_sub, Int64.ofInt_add]
  · intro env pindex pindex' b db' henv hok
    subst henv
    obtain ⟨_, _, s, -, hr, -, -, rfl⟩ := connectBlock_eq_ok hok
    obtain ⟨hout, hin, hfees, -⟩ := hr.amounts
    simp only [ConnectState.init, view_empty, Int64.zero_add] at hout hin hfees
    show s.nValueOut - s.nValueIn + s.nFees = _
    rw [hout, hin, hfees, Int64.ofInt_add, Int64.ofInt_sub]
    rfl

theorem accepted_of_connectBlocks {env : Env} {base : PIndex} {blocks chain : Chain} {db : TxDB}
    (h : connectBlocks env base blocks = .ok (db, chain))
    (hstored : ∀ p ∈ blocks, OnDisk env.readTx p.1 p.2) :
    Accepted env.crypto env.readTx base db chain :=
  connectBlocks_induct .genesis
    (fun p hp _ _ _ _ hacc hc => .connect hacc rfl (fun _ _ => id) (hstored p hp) hc) h

/-- The supply where a coinbase is spent and repeated: 59, from 12 coinbases of 5 and a fee of 1. -/
theorem repeatingBlocks_supply : ∃ db chain,
    Accepted Crypto.sample repeatingEnv.readTx [sampleIndex 0 8] db chain ∧
    ((chain.pindex [sampleIndex 0 8]).head?.map (·.nMoneySupply)).getD 0 = 59 ∧
    59 = Int64.ofInt (unspentTotal repeatingEnv.readTx db) := by
  obtain ⟨⟨db, chain⟩, hrun, hsupply⟩ :
      ∃ r, connectBlocks repeatingEnv [sampleIndex 0 8] repeatingBlocks = .ok r ∧
        ((r.2.pindex [sampleIndex 0 8]).head?.map (·.nMoneySupply)).getD 0 = 59 := by decide +kernel
  have hdisk : ∀ p ∈ repeatingBlocks, p.1.nFile ≠ 0xffffffff ∧ p.1.nBlockPos ≠ 1 ∧
      ∀ t ∈ p.2.stored p.1, repeatingEnv.readTx t.1 = some t.2 := by decide +kernel
  have hacc : Accepted Crypto.sample repeatingEnv.readTx [sampleIndex 0 8] db chain :=
    accepted_of_connectBlocks hrun fun p hp =>
      ⟨(hdisk p hp).1, (hdisk p hp).2.1, (hdisk p hp).2.2⟩
  have heq := (moneySupply_eq_unspent Crypto.sample repeatingEnv.readTx [sampleIndex 0 8] rfl db
    chain hacc).1
  exact ⟨db, chain, hacc, hsupply, hsupply ▸ heq⟩

end NovaCoin
