import NovaCoin.Spec.Template

/-!
# Completed templates

What the miner and the staker do to a template before the block is handed on: `IncrementExtraNonce`
fills in the script of the coinbase and the Merkle root, the search for a proof of work the time
and the nonce, `SignBlock` the signature. The room `CreateNewBlock` leaves for the header and the
coinbase is enough for what is added here (`Completed.checkBlock`).
-/

namespace NovaCoin

open Guard SpentIndex List

/-! ## Sizes -/

theorem length_compactSize_of_lt {n : Nat} (h : n < 253) : (compactSize n).length = 1 := by
  rw [compactSize, if_pos h]
  rfl

theorem length_serializeBytes {v : List UInt8} (h : v.length < 253) :
    (serializeBytes v).length = v.length + 1 := by
  rw [serializeBytes, length_append, length_compactSize_of_lt h, Nat.add_comm]

theorem CBlock.getSerializeSize_le {b : CBlock} (h : b.vchBlockSig.length < 253) :
    b.getSerializeSize ≤
      90 + (b.vtx.map (·.getSerializeSize)).sum + b.vchBlockSig.length := by
  have hcompact := length_compactSize_le b.vtx.length
  simp only [getSerializeSize, serialize, serializeHeader, serializeVector, serializeUint256,
    length_append, length_leBytes, length_serializeBytes h, length_flatMap,
    CTransaction.getSerializeSize]
  omega

theorem length_le_sum_getSerializeSize (vtx : List CTransaction) :
    vtx.length ≤ (vtx.map (·.getSerializeSize)).sum := by
  induction vtx with
  | nil => simp
  | cons tx vtx ih =>
    have := tx.getSerializeSize_pos
    simp only [length_cons, map_cons, sum_cons]
    omega

/-! ## Sigops of the coinbase -/

theorem countSigOps_of_getOp {fAccurate : Bool} {pc pc' : CScript} {lastOpcode opcode : UInt8}
    {n : Nat} {vch : Valtype} (h : getOp pc = some (opcode, vch, pc')) :
    countSigOps fAccurate pc lastOpcode n = countSigOps fAccurate pc' opcode
      (if opcode == Op.OP_CHECKSIG.toByte || opcode == Op.OP_CHECKSIGVERIFY.toByte then n + 1
      else if opcode == Op.OP_CHECKMULTISIG.toByte || opcode == Op.OP_CHECKMULTISIGVERIFY.toByte then
        if fAccurate && Op.OP_1.toByte ≤ lastOpcode && lastOpcode ≤ Op.OP_16.toByte then
          n + decodeOpN lastOpcode
        else n + 20
      else n) := by
  rw [countSigOps]
  split
  · next h' =>
    rw [h] at h'
    cases h'
  · next h' =>
    rw [h] at h'
    cases h'
    rfl

theorem pushData_keyID (keyID : CKeyID) : pushData keyID.1 = 20 :: keyID.1 := by
  rw [pushData, keyID.2]
  rfl

theorem getOp_push (keyID : CKeyID) (pc : CScript) :
    getOp (pushData keyID.1 ++ pc) = some (20, keyID.1, pc) := by
  have hsize : readPushSize 20 (keyID.1 ++ pc) = some (20, keyID.1 ++ pc) := rfl
  rw [pushData_keyID, cons_append, getOp, if_pos (by decide), hsize]
  simp [keyID.2, take_left', drop_left']

theorem getSigOpCount_setDestination (keyID : CKeyID) :
    getSigOpCount (setDestination keyID) false = 1 := by
  let rest : CScript := [Op.OP_EQUALVERIFY.toByte, Op.OP_CHECKSIG.toByte]
  calc getSigOpCount (setDestination keyID) false
    _ = countSigOps false (Op.OP_DUP.toByte :: Op.OP_HASH160.toByte :: (pushData keyID.1 ++ rest))
          OP_INVALIDOPCODE 0 := by simp [getSigOpCount, setDestination, rest]
    _ = countSigOps false (Op.OP_HASH160.toByte :: (pushData keyID.1 ++ rest)) Op.OP_DUP.toByte 0 :=
        countSigOps_of_getOp rfl
    _ = countSigOps false (pushData keyID.1 ++ rest) Op.OP_HASH160.toByte 0 :=
        countSigOps_of_getOp rfl
    _ = countSigOps false rest 20 0 := countSigOps_of_getOp (getOp_push keyID rest)
    _ = 1 := rfl

/-! ## The coinbase -/

/-- A transaction with the one input of a coinbase and one output. -/
structure IsGeneration (tx : CTransaction) (scriptSig : CScript) (txout : CTxOut) : Prop where
  vin : tx.vin = [⟨COutPoint.null, scriptSig, 0xffffffff⟩]
  vout : tx.vout = [txout]

variable {scriptSig : CScript}

namespace IsGeneration

variable {tx : CTransaction} {txout : CTxOut} (h : IsGeneration tx scriptSig txout)

include h

theorem isCoinBase : tx.isCoinBase := by
  rw [CTransaction.isCoinBase, h.vin, h.vout]
  rfl

theorem getSerializeSize (hscript : scriptSig.length < 253)
    (hpub : txout.scriptPubKey.length < 253) :
    tx.getSerializeSize = 64 + scriptSig.length + txout.scriptPubKey.length := by
  have hone : (compactSize 1).length = 1 := rfl
  simp only [CTransaction.getSerializeSize, CTransaction.serialize, serializeVector, h.vin, h.vout,
    length_append, length_leBytes, length_cons, length_nil, flatMap_cons,
    flatMap_nil, CTxIn.serialize, CTxOut.serialize, COutPoint.serialize, serializeUint256,
    length_serializeBytes hscript, length_serializeBytes hpub, Nat.zero_add, hone]
  omega

theorem getLegacySigOpCount : tx.getLegacySigOpCount = getSigOpCount txout.scriptPubKey false := by
  rw [CTransaction.getLegacySigOpCount, if_pos h.isCoinBase, h.vout]
  simp

theorem getValueOut (hvalue : moneyRange txout.nValue) :
    tx.getValueOut = .ok txout.nValue := by
  rw [CTransaction.getValueOut, h.vout]
  refine foldAll_cons_eq_ok.mpr ⟨txout.nValue, require_bind_eq_ok.mpr ⟨?_, ?_⟩, rfl⟩
  · rw [Int64.zero_add, hvalue]
    rfl
  · rw [Int64.zero_add]
    rfl

theorem checkTransaction (hlow : 2 ≤ scriptSig.length) (hhigh : scriptSig.length ≤ 100)
    (hpub : txout.scriptPubKey.length < 253) (hvalue : moneyRange txout.nValue) :
    tx.checkTransaction = .ok () := by
  have hsize := h.getSerializeSize (by omega) hpub
  have hrange : 0 ≤ txout.nValue ∧ txout.nValue ≤ MAX_MONEY := by
    simpa [moneyRange] using hvalue
  refine require_bind_eq_ok.mpr ⟨by rw [h.vin]; rfl, ?_⟩
  refine require_bind_eq_ok.mpr ⟨by rw [h.vout]; rfl, ?_⟩
  refine require_bind_eq_ok.mpr ⟨?_, bind_eq_ok.mpr ⟨txout.nValue, ?_, ?_⟩⟩
  · have : MAX_BLOCK_SIZE = 1000000 := rfl
    exact decide_eq_true (by omega)
  · rw [h.vout]
    refine foldAll_cons_eq_ok.mpr ⟨txout.nValue, ?_, rfl⟩
    refine require_bind_eq_ok.mpr ⟨by simp [h.isCoinBase], ?_⟩
    refine require_bind_eq_ok.mpr ⟨decide_eq_true hrange.1, ?_⟩
    refine require_bind_eq_ok.mpr ⟨decide_eq_true hrange.2, ?_⟩
    rw [Int64.zero_add]
    exact require_bind_eq_ok.mpr ⟨hvalue, rfl⟩
  · refine require_bind_eq_ok.mpr ⟨by rw [h.vin]; rfl, ?_⟩
    rw [CTransaction.checkInputs, if_pos h.isCoinBase, h.vin, forAll_eq_ok]
    intro txin htxin
    rw [mem_singleton.mp htxin]
    simp [require, hlow, hhigh]

end IsGeneration

/-! ## The extra nonce -/

theorem length_pushData_pos (v : Valtype) : 0 < (pushData v).length := by
  unfold pushData
  split_ifs <;> simp

theorem length_pushUint64_pos (n : Nat) : 0 < (pushUint64 n).length := by
  unfold pushUint64
  split
  · simp
  · exact length_pushData_pos _

theorem incrementExtraNonce_eq_some {crypto : Crypto} {COINBASE_FLAGS : CScript}
    {pindexPrev : PIndex} {state : Uint256 × UInt32} {pblock : CBlock} {r : CBlock × Uint256 × UInt32}
    (h : incrementExtraNonce crypto COINBASE_FLAGS pindexPrev state pblock = some r) :
    ∃ scriptSig, 2 ≤ scriptSig.length ∧ scriptSig.length ≤ 100 ∧
      r.1 = { pblock.setCoinbaseScript scriptSig with
        hashMerkleRoot := buildMerkleTree crypto (pblock.setCoinbaseScript scriptSig) } := by
  obtain ⟨hlen, hr⟩ := Option.ite_none_right_eq_some.mp h
  refine ⟨_, ?_, hlen, ?_⟩
  · simp only [length_append]
    have h₁ := length_pushUint64_pos
      (UInt32.ofInt ((pindexPrev.head?.map (·.nHeight)).getD 0 + 1)).toNat
    have h₂ := length_pushData_pos
      (getvch ((if state.1 ≠ pblock.hashPrevBlock then 0 else state.2) + 1).toNat)
    omega
  · rw [← Option.some.inj hr]

/-! ## The block that is made of a template -/

namespace Miner

variable {D : Type} {m : Miner D}

/-- No transaction with this txid is in the pool, and none that is not completely spent in the
index. -/
structure FreshTxid (m : Miner D) (hash : Uint256) : Prop where
  allSpent : AllSpent (index m.db) hash
  notInPool : m.mempool.mapTx.lookup hash = none

/-- The template after `IncrementExtraNonce`, with another time, nonce and signature. A proof of
work is not before the template; a proof of stake has the time of its coinstake and no nonce. -/
structure Completed (m : Miner D) (env' : Env) (pblock b : CBlock) : Prop where
  extraNonce : ∃ COINBASE_FLAGS state pblock' state',
    incrementExtraNonce m.env.crypto COINBASE_FLAGS m.pindexPrev state pblock =
        some (pblock', state') ∧
      b = { pblock' with nTime := b.nTime, nNonce := b.nNonce, vchBlockSig := b.vchBlockSig }
  vchBlockSig : b.vchBlockSig.length < 253
  work : m.txCoinStake = none →
    checkProofOfWork m.env.fTestNet (m.env.crypto.blockHash b) b.nBits = true ∧
      pblock.nTime ≤ b.nTime ∧ b.getBlockTime ≤ futureDrift env'.getAdjustedTime
  stake : m.txCoinStake ≠ none → b.nTime = pblock.nTime ∧ b.nNonce = pblock.nNonce
  fresh : ∀ coinbase ∈ b.vtx.head?, m.FreshTxid (m.env.txHash coinbase) ∧
    ∀ txCoinStake ∈ m.txCoinStake, m.env.txHash txCoinStake ≠ m.env.txHash coinbase

def coinbaseOut (m : Miner D) (nBits : UInt32) (nFees : Int64) : CTxOut :=
  match m.txCoinStake with
  | some _ => CTxOut.empty
  | none => ⟨getProofOfWorkReward m.env.fTestNet nBits + nFees, setDestination m.keyID⟩

/-- What a completed template looks like. -/
structure Filled (m : Miner D) (pblock b : CBlock) (s : Selected) (coinbase : CTransaction)
    (scriptSig : CScript) : Prop where
  vtx : b.vtx = coinbase :: (m.txCoinStake.toList ++ s.vtx)
  nBits : b.nBits = pblock.nBits
  generation : IsGeneration coinbase scriptSig (m.coinbaseOut pblock.nBits s.nFees)
  script_low : 2 ≤ scriptSig.length
  script_high : scriptSig.length ≤ 100
  nTime : coinbase.nTime = (m.txCoinBase pblock.nBits s.nFees).nTime
  hashMerkleRoot : b.hashMerkleRoot = buildMerkleTree m.env.crypto b

variable {txs : List CTransaction} {txCoinStake : CTransaction}

theorem Completed.filled {env' : Env} {prev : CBlockIndex} {pblock b : CBlock} {s : Selected}
    (h : Completed m env' pblock b) (ht : IsTemplate m prev pblock txs s) :
    ∃ coinbase scriptSig, Filled m pblock b s coinbase scriptSig := by
  obtain ⟨COINBASE_FLAGS, state, pblock', state', hinc, hb⟩ := h.extraNonce
  obtain ⟨scriptSig, hlow, hhigh, rfl⟩ := incrementExtraNonce_eq_some hinc
  let coinbase := { m.txCoinBase pblock.nBits s.nFees with
    vin := [⟨COutPoint.null, scriptSig, 0xffffffff⟩] }
  refine ⟨coinbase, scriptSig, ?_, ?_, ⟨rfl, ?_⟩, hlow, hhigh, rfl, ?_⟩
  · rw [hb]
    simp only [CBlock.setCoinbaseScript, ht.vtx, modifyHead_cons]
    rfl
  · rw [hb]
    rfl
  · show (m.txCoinBase pblock.nBits s.nFees).vout = _
    unfold txCoinBase coinbaseOut
    cases m.txCoinStake <;> rfl
  · rw [hb]
    rfl

/-! ## What is asked of the node -/

/-- A node with its clock in range and no trace of the memory pool in its index, on which the scan
of the pool leaves no dangling pointer and confirmed transactions cannot be connected again. -/
structure Ready (m : Miner D) : Prop where
  resolved : m.Resolved
  unconfirmed : m.Unconfirmed
  notInMemory : NotInMemory (index m.db)
  clock_nonneg : 0 ≤ m.env.getAdjustedTime
  clock_lt : m.env.getAdjustedTime < 2 ^ 32

/-- There is room for the coinstake in the block and for the fees in the coinbase, which the
template does not check. -/
structure HasRoom (m : Miner D) : Prop where
  stakeSize : ∀ txCoinStake ∈ m.txCoinStake,
    txCoinStake.getSerializeSize + m.args.nBlockMaxSize ≤ MAX_BLOCK_SIZE
  fees : m.txCoinStake = none → (getProofOfWorkReward m.env.fTestNet
        (getNextTargetRequired m.env.fTestNet m.pindexPrev false)).toInt +
      (m.candidates.map fun tx => max 0 (m.poolFee tx)).sum < 2 ^ 63

/-! ## Times -/

theorem toNat_ofInt {n : Int} (hn : 0 ≤ n) (hlt : n < 2 ^ 32) :
    ((UInt32.ofInt n).toNat : Int) = n := by
  rw [UInt32.ofInt, UInt32.toNat_ofNat']
  omega

theorem getAdjustedTime_le_blockTime (hready : m.Ready) (hwork : m.txCoinStake = none)
    (prev : CBlockIndex) (vtx : List CTransaction) :
    m.env.getAdjustedTime ≤ (m.blockTime prev vtx).toNat := by
  have h₀ := hready.clock_nonneg
  have h₁ := hready.clock_lt
  simp only [blockTime, hwork]
  rw [toNat_ofInt]
  · exact le_max_right _ _
  · exact le_max_of_le_right h₀
  · refine max_lt ?_ h₁
    exact_mod_cast UInt32.toNat_lt _

/-! ## Fees -/

theorem sum_poolFee_le {s : Selected} (hpicks : Picks m selected txs s)
    (hnodup : (txs.map m.env.txHash).Nodup) :
    (txs.map m.poolFee).sum ≤ (m.candidates.map fun tx => max 0 (m.poolFee tx)).sum := by
  have hsub : txs ⊆ m.candidates := fun tx htx => (hpicks.mem tx htx).2.1
  obtain ⟨l, hperm, hl⟩ := (List.Nodup.of_map _ hnodup).subperm hsub
  calc (txs.map m.poolFee).sum
    _ ≤ (txs.map fun tx => max 0 (m.poolFee tx)).sum :=
        sum_le_sum fun tx _ => le_max_right _ _
    _ = (l.map fun tx => max 0 (m.poolFee tx)).sum := ((hperm.map _).sum_eq).symm
    _ ≤ (m.candidates.map fun tx => max 0 (m.poolFee tx)).sum := by
        refine (hl.map _).sum_le_sum ?_
        rw [forall_mem_map]
        exact fun tx _ => le_max_left _ _

/-- The coinbase of a proof-of-work block gets what it may. -/
theorem moneyRange_reward {s : Selected} (hc : m.mempool.Checked m.env.crypto) (hready : m.Ready)
    (hroom : m.HasRoom) (hpicks : Picks m selected txs s) (hnodup : (txs.map m.env.txHash).Nodup)
    (hwork : m.txCoinStake = none) :
    moneyRange (getProofOfWorkReward m.env.fTestNet
      (getNextTargetRequired m.env.fTestNet m.pindexPrev false) + s.nFees) := by
  have horigin : m.Origin (view m.db selected.mapTestPool) := by
    exact origin_index
  have hle := sum_poolFee_le hpicks hnodup
  have hsum : 0 ≤ (txs.map m.poolFee).sum :=
    sum_nonneg (forall_mem_map.mpr
      (hpicks.poolFee_nonneg hc hready.unconfirmed hready.notInMemory horigin))
  have hreward := getProofOfWorkReward_nonneg m.env.fTestNet
    (getNextTargetRequired m.env.fTestNet m.pindexPrev false)
  have hlt := hroom.fees hwork
  have hzero : selected.nFees.toInt = 0 := rfl
  have hfees := hpicks.fees hc hready.unconfirmed hready.notInMemory horigin hzero.ge (by omega)
  rw [moneyRange_iff, Int64.toInt_add, Int.bmod_eq_of_le] <;> omega

/-! ## The coinstake -/

/-- How `ConnectBlock` would call `ConnectInputs` for the coinstake with the script checks made at
once. -/
def stakeArgs (m : Miner D) (pindex : CBlockIndex) (txCoinStake : CTransaction) : ConnectArgs :=
  { posThisTx := .inMemory, pindexBlock := pindex :: m.pindexPrev, fBlock := true, fMiner := false,
    fScriptChecks := true, flags := connectBlockFlags txCoinStake.nTime, pvChecks := false }

/-- A coinstake that passes `ConnectInputs` on the index, within the sigops left. -/
structure StakeOk (m : Miner D) (env' : Env) (pindex : CBlockIndex) (txCoinStake : CTransaction) :
    Prop where
  isCoinStake : txCoinStake.isCoinStake = true
  checked : txCoinStake.checkTransaction = .ok ()
  fresh : m.FreshTxid (m.env.txHash txCoinStake)
  connects : ∃ inputs nP2SHSigOps r, fetchInputs env' m.db ∅ true false txCoinStake = .ok inputs ∧
    connectInputs env' m.db inputs ∅ (m.stakeArgs pindex txCoinStake) txCoinStake = .ok r ∧
    txCoinStake.getP2SHSigOpCount inputs = .ok nP2SHSigOps ∧
    txCoinStake.getLegacySigOpCount + nP2SHSigOps ≤ 100

theorem StakeOk.not_coinBase {env' : Env} {pindex : CBlockIndex}
    (h : StakeOk m env' pindex txCoinStake) : txCoinStake.isCoinBase = false := by
  by_contra hcb
  rw [Bool.not_eq_false] at hcb
  have hno := CTransaction.isCoinStake_of_isCoinBase hcb
  rw [h.isCoinStake] at hno
  cases hno

theorem StakeOk.legacySigOps {env' : Env} {pindex : CBlockIndex}
    (h : StakeOk m env' pindex txCoinStake) : txCoinStake.getLegacySigOpCount ≤ 100 := by
  obtain ⟨_, _, _, -, -, -, hsig⟩ := h.connects
  omega

/-! ## CheckBlock -/

section CheckBlock

variable {env' : Env} {prev pindex : CBlockIndex} {pblock b : CBlock} {s : Selected}
  {coinbase : CTransaction}

theorem IsTemplate.selected_vtx (h : IsTemplate m prev pblock txs s) : s.vtx = txs := by
  simpa [selected] using h.picks.vtx

theorem length_coinbaseOut (nBits : UInt32) (nFees : Int64) :
    (m.coinbaseOut nBits nFees).scriptPubKey.length ≤ 25 := by
  unfold coinbaseOut
  split
  · exact Nat.zero_le _
  · simp [setDestination, pushData_keyID, m.keyID.2]

theorem Filled.coinbase_size (h : Filled m pblock b s coinbase scriptSig)
    : coinbase.getSerializeSize ≤ 189 := by
  have hout := length_coinbaseOut (m := m) pblock.nBits s.nFees
  have hhigh := h.script_high
  rw [h.generation.getSerializeSize (by omega) (by omega)]
  omega

/-- The 1000 bytes the template starts with are enough for the header, the coinbase and the
signature. -/
theorem Filled.size (h : Filled m pblock b s coinbase scriptSig)
    (ht : IsTemplate m prev pblock txs s) (hroom : m.HasRoom)
    (hsig : b.vchBlockSig.length < 253) :
    90 + (b.vtx.map (·.getSerializeSize)).sum + b.vchBlockSig.length ≤ MAX_BLOCK_SIZE := by
  have hcoinbase := h.coinbase_size
  have hmax : m.args.nBlockMaxSize ≤ MAX_BLOCK_SIZE - 1000 := max_le (by decide) (min_le_left _ _)
  have hpicks := ht.picks.size (show 1000 ≤ m.args.nBlockMaxSize from le_max_left _ _)
  have hstart : selected.nBlockSize = 1000 := rfl
  rw [h.vtx, ht.selected_vtx]
  cases hcs : m.txCoinStake with
  | none =>
    simp only [Option.toList_none, nil_append, map_cons, sum_cons]
    omega
  | some txCoinStake =>
    have hstake := hroom.stakeSize txCoinStake hcs
    simp only [Option.toList_some, singleton_append, map_cons, sum_cons]
    omega

theorem getSigOpCount_coinbaseOut (nBits : UInt32) (nFees : Int64) :
    getSigOpCount (m.coinbaseOut nBits nFees).scriptPubKey false =
      if m.txCoinStake = none then 1 else 0 := by
  unfold coinbaseOut
  cases m.txCoinStake with
  | none => exact getSigOpCount_setDestination m.keyID
  | some _ => rfl

theorem Filled.sigOps (h : Filled m pblock b s coinbase scriptSig)
    (ht : IsTemplate m prev pblock txs s)
    (hstake : ∀ txCoinStake ∈ m.txCoinStake, StakeOk m env' pindex txCoinStake) :
    (b.vtx.map (·.getLegacySigOpCount)).sum ≤ MAX_BLOCK_SIGOPS := by
  have hpicks := ht.picks.sigOps (by decide)
  have hstart : selected.nBlockSigOps = 100 := rfl
  have hout := getSigOpCount_coinbaseOut (m := m) pblock.nBits s.nFees
  rw [← h.generation.getLegacySigOpCount] at hout
  rw [h.vtx, ht.selected_vtx]
  cases hcs : m.txCoinStake with
  | none =>
    rw [hcs, if_pos rfl] at hout
    simp only [Option.toList_none, nil_append, map_cons, sum_cons]
    omega
  | some txCoinStake =>
    have hlegacy := (hstake txCoinStake hcs).legacySigOps
    rw [hcs, if_neg (by simp)] at hout
    simp only [Option.toList_some, singleton_append, map_cons, sum_cons]
    omega

theorem FreshTxid.not_mem {hash : Uint256} (h : m.FreshTxid hash)
    (ht : IsTemplate m prev pblock txs s) : hash ∉ txs.map m.env.txHash := by
  intro hmem
  obtain ⟨tx, htx, rfl⟩ := mem_map.mp hmem
  have hin : m.mempool.mapTx.lookup (m.env.txHash tx) = some tx := (ht.picks.mem tx htx).1
  rw [h.notInPool] at hin
  cases hin

theorem Filled.nodup (h : Filled m pblock b s coinbase scriptSig)
    (ht : IsTemplate m prev pblock txs s) (hdone : Completed m env' pblock b)
    (hstake : ∀ txCoinStake ∈ m.txCoinStake, StakeOk m env' pindex txCoinStake) :
    (b.vtx.map m.env.txHash).Nodup := by
  obtain ⟨hfresh, hne⟩ := hdone.fresh coinbase (by rw [h.vtx]; rfl)
  have hcoinbase := hfresh.not_mem ht
  rw [h.vtx, ht.selected_vtx]
  cases hcs : m.txCoinStake with
  | none =>
    exact nodup_cons.mpr ⟨hcoinbase, ht.nodup⟩
  | some txCoinStake =>
    rw [Option.toList_some, singleton_append, map_cons, map_cons]
    refine nodup_cons.mpr ⟨?_, nodup_cons.mpr
      ⟨(hstake txCoinStake hcs).fresh.not_mem ht, ht.nodup⟩⟩
    rw [mem_cons]
    rintro (heq | hmem)
    · exact hne txCoinStake hcs heq.symm
    · exact hcoinbase hmem

theorem uniqueTxCount_of_nodup {env : Env} (h : (b.vtx.map env.txHash).Nodup) :
    uniqueTxCount env b = b.vtx.length := by
  rw [uniqueTxCount, h.dedup, length_map]

theorem Completed.nTime_le (hdone : Completed m env' pblock b) (ht : IsTemplate m prev pblock txs s)
    (hready : m.Ready) : ∀ tx ∈ txs, (tx.nTime.toNat : Int) ≤ b.getBlockTime := by
  intro tx htx
  obtain ⟨-, -, hclock, hstake⟩ := ht.picks.mem tx htx
  cases hcs : m.txCoinStake with
  | none =>
    have hblock := getAdjustedTime_le_blockTime hready hcs prev pblock.vtx
    rw [← ht.nTime] at hblock
    have hle := UInt32.le_iff_toNat_le.mp (hdone.work hcs).2.1
    unfold CBlock.getBlockTime
    omega
  | some txCoinStake =>
    have hle := UInt32.le_iff_toNat_le.mp (hstake txCoinStake hcs)
    have htime : b.nTime = txCoinStake.nTime := by
      rw [(hdone.stake (by simp [hcs])).1, ht.nTime, blockTime, hcs]
    rw [CBlock.getBlockTime, htime]
    exact_mod_cast hle

section

variable (hc : m.mempool.Checked m.env.crypto) (ht : IsTemplate m prev pblock txs s)
  (h : Filled m pblock b s coinbase scriptSig)
include hc ht h

theorem Filled.isProofOfStake
    (hstake : ∀ txCoinStake ∈ m.txCoinStake, StakeOk m env' pindex txCoinStake) :
    b.isProofOfStake = m.fProofOfStake := by
  rw [CBlock.isProofOfStake, h.vtx, ht.selected_vtx, fProofOfStake]
  cases hcs : m.txCoinStake with
  | some txCoinStake => exact (hstake txCoinStake hcs).isCoinStake
  | none =>
    cases htxs : txs with
    | nil => rfl
    | cons tx txs' =>
      have hin := (ht.picks.mem tx (by simp [htxs])).1
      exact (hin.poolTx hc).not_coinStake

theorem Filled.checkCoinBase (hready : m.Ready) (hroom : m.HasRoom) :
    moneyRange (m.coinbaseOut pblock.nBits s.nFees).nValue ∧
      coinbase.checkTransaction = .ok () := by
  have hvalue : moneyRange (m.coinbaseOut pblock.nBits s.nFees).nValue := by
    rw [coinbaseOut, ht.nBits, fProofOfStake]
    cases hcs : m.txCoinStake with
    | some _ => rfl
    | none => exact moneyRange_reward hc hready hroom ht.picks ht.nodup hcs
  have hout := length_coinbaseOut (m := m) pblock.nBits s.nFees
  exact ⟨hvalue, h.generation.checkTransaction h.script_low h.script_high (by omega) hvalue⟩

theorem Filled.checkKind (hready : m.Ready) (hdone : Completed m env' pblock b)
    (hcrypto : env'.crypto = m.env.crypto)
    (hnet : env'.fTestNet = m.env.fTestNet)
    (hstake : ∀ txCoinStake ∈ m.txCoinStake, StakeOk m env' pindex txCoinStake) :
    NovaCoin.checkKind env' b coinbase true false = .ok () := by
  rw [NovaCoin.checkKind, h.isProofOfStake hc ht hstake, fProofOfStake]
  cases hcs : m.txCoinStake with
  | some txCoinStake =>
    obtain ⟨htime, hnonce⟩ := hdone.stake (by simp [hcs])
    refine bind_eq_ok.mpr ⟨txCoinStake, ?_, ?_⟩
    · rw [h.vtx, hcs]
      rfl
    · refine require_bind_eq_ok.mpr ⟨?_, require_bind_eq_ok.mpr ⟨?_, require_bind_eq_ok.mpr ⟨?_, ?_⟩⟩⟩
      · rw [hnonce, ht.nNonce]
        rfl
      · rw [h.generation.vout, coinbaseOut, hcs]
        rfl
      · rw [CBlock.getBlockTime, htime, ht.nTime, blockTime, hcs]
        exact beq_self_eq_true _
      · refine require_bind_eq_ok.mpr ⟨rfl, mapError_eq_ok.mpr ?_⟩
        exact (hstake txCoinStake hcs).checked
  | none =>
    obtain ⟨hwork, htime, hdrift⟩ := hdone.work hcs
    refine require_bind_eq_ok.mpr ⟨?_, require_bind_eq_ok.mpr ⟨decide_eq_true hdrift, ?_⟩⟩
    · rw [hcrypto, hnet, hwork]
      rfl
    · have hblock := getAdjustedTime_le_blockTime hready hcs prev pblock.vtx
      rw [← ht.nTime] at hblock
      have hle := UInt32.le_iff_toNat_le.mp htime
      have hcoinbase : (coinbase.nTime.toNat : Int) = m.env.getAdjustedTime := by
        rw [h.nTime, txCoinBase, hcs]
        exact toNat_ofInt hready.clock_nonneg hready.clock_lt
      have hcheck : pastDrift coinbase.nTime.toNat ≤ b.getBlockTime := by
        simp only [pastDrift, nOneHour, CBlock.getBlockTime]
        omega
      exact if_pos (decide_eq_true hcheck)

omit h in
theorem Completed.checkOrdinary (hdone : Completed m env' pblock b) (hready : m.Ready) :
    ∀ tx ∈ txs, NovaCoin.checkOrdinary b tx = .ok () := by
  intro tx htx
  have hpool := (ht.picks.mem tx htx).1.poolTx hc
  refine require_bind_eq_ok.mpr ⟨by rw [hpool.not_coinBase]; rfl, ?_⟩
  refine require_bind_eq_ok.mpr ⟨by rw [hpool.not_coinStake]; rfl, ?_⟩
  refine require_bind_eq_ok.mpr ⟨decide_eq_true (hdone.nTime_le ht hready tx htx), ?_⟩
  exact mapError_eq_ok.mpr hpool.checked

/-- A completed template passes `CheckBlock`. -/
theorem Filled.checkBlock (hready : m.Ready) (hroom : m.HasRoom)
    (hdone : Completed m env' pblock b) (hcrypto : env'.crypto = m.env.crypto)
    (hnet : env'.fTestNet = m.env.fTestNet)
    (hstake : ∀ txCoinStake ∈ m.txCoinStake, StakeOk m env' pindex txCoinStake) :
    NovaCoin.checkBlock env' b true true false = .ok () := by
  have hsize := h.size ht hroom hdone.vchBlockSig
  refine require_bind_eq_ok.mpr ⟨?_, bind_eq_ok.mpr ⟨coinbase, by rw [h.vtx]; rfl, ?_⟩⟩
  · have hserialize := CBlock.getSerializeSize_le hdone.vchBlockSig
    have hlength := length_le_sum_getSerializeSize b.vtx
    have hempty : b.vtx.isEmpty = false := by rw [h.vtx]; rfl
    rw [hempty, decide_eq_true (show b.vtx.length ≤ MAX_BLOCK_SIZE by omega),
      decide_eq_true (show b.getSerializeSize ≤ MAX_BLOCK_SIZE by omega)]
    rfl
  refine require_bind_eq_ok.mpr ⟨h.generation.isCoinBase, ?_⟩
  refine bind_eq_ok.mpr ⟨(), mapError_eq_ok.mpr (h.checkCoinBase hc ht hready hroom).2, ?_⟩
  refine bind_eq_ok.mpr ⟨(), h.checkKind hc ht hready hdone hcrypto hnet hstake, ?_⟩
  refine bind_eq_ok.mpr ⟨(), ?_, require_bind_eq_ok.mpr ⟨?_, require_bind_eq_ok.mpr ⟨?_, ?_⟩⟩⟩
  · have hdrop : b.vtx.drop (if b.isProofOfStake then 2 else 1) = txs := by
      rw [h.isProofOfStake hc ht hstake, h.vtx, ht.selected_vtx, fProofOfStake]
      cases m.txCoinStake <;> rfl
    rw [hdrop, forAll_eq_ok]
    exact hdone.checkOrdinary hc ht hready
  · have hnodup := h.nodup ht hdone hstake
    have htxid : env'.txHash = m.env.txHash := by
      funext tx
      rw [Env.txHash, Env.txHash, hcrypto]
    rw [← htxid] at hnodup
    exact beq_iff_eq.mpr (uniqueTxCount_of_nodup hnodup)
  · exact decide_eq_true (h.sigOps ht hstake)
  · rw [hcrypto, h.hashMerkleRoot]
    simp [require]

end

end CheckBlock

end Miner

end NovaCoin
