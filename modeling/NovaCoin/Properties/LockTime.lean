import NovaCoin.Miner
import NovaCoin.Properties.Disconnect
import NovaCoin.Properties.ScriptFlags
import NovaCoin.Spec.Block

/-!
# Lock times

`OP_CHECKLOCKTIMEVERIFY` compares its operand with `nLockTime` of the spending transaction, and
`IsFinal` compares that with the block: together they make an absolute lock
(`lockTime_lt_of_isFinal`).

`OP_CHECKSEQUENCEVERIFY` compares its operand with `nSequence` of the input
(`sequence_of_connectBlock`), and there the chain ends: nothing compares `nSequence` with the age
of the output that is spent (`earlySpend_connected`).
-/

namespace NovaCoin

open Guard List

/-! ## Checks that were made -/

/-- All checks in the log have passed. -/
def Passed (ctx : ScriptContext) (log : List Check) : Prop := ∀ c ∈ log, ctx.passes c = true

theorem verifyScriptLog_passed {ctx : ScriptContext} {log : List Check}
    {scriptSig scriptPubKey : CScript}
    (h : verifyScriptLog ctx scriptSig scriptPubKey = some log) : Passed ctx log := by
  unfold verifyScriptLog at h
  split at h
  · cases h
  · next st hsig =>
    obtain ⟨-, -, hsig⟩ := evalScript_follows ctx.flags hsig
    have hp : Passed ctx st.log := fun c hc => (hsig c hc).resolve_left not_mem_nil
    split at h
    · cases h
    · next st' hpub =>
      obtain ⟨-, -, hpub⟩ := evalToTrue_follows ctx.flags hpub
      have hp' : Passed ctx st'.log := fun c hc => (hpub c hc).elim (hp c) id
      split at h
      · split at h
        · cases h
        · split at h
          · cases h
          · obtain ⟨st'', hsub, rfl⟩ := Option.map_eq_some_iff.mp h
            obtain ⟨-, -, hsub⟩ := evalToTrue_follows ctx.flags hsub
            exact fun c hc => (hsub c hc).elim (hp' c) id
      · cases h
        exact hp'

/-! ## Operands -/

theorem castToBigNum_lt {vch : Valtype} {n : Int} (h : castToBigNum vch = some n) :
    n < 256 ^ 5 := by
  have hlt := natAbs_castToBigNum_lt h
  omega

theorem toInt_getuint64 {n : Int} (hn : 0 ≤ n) (hlt : n < 256 ^ 5) :
    (getuint64 n).toInt64.toInt = n := by
  rw [getuint64_eq hn (by omega)]
  show (Int64.ofNat n.toNat).toInt = n
  rw [Int64.toInt_ofNat_of_lt (by omega)]
  omega

theorem toInt_of_uint32 (n : UInt32) : n.toUInt64.toInt64.toInt = n.toNat := by
  have hlt := n.toNat_lt
  show n.toUInt64.toBitVec.toInt = n.toNat
  rw [BitVec.toInt_eq_toNat_of_lt (by simp; omega)]
  simp

/-! ## The absolute lock -/

/-- `IsFinal`; a height or time of 0 stands for that of the best block and of the clock. -/
def CTransaction.isFinalIn (tx : CTransaction) (nBestHeight nAdjustedTime : Int)
    (nBlockHeight nBlockTime : Int) : Bool :=
  tx.isFinal (if nBlockHeight = 0 then nBestHeight else nBlockHeight)
    (if nBlockTime = 0 then nAdjustedTime else nBlockTime)

variable {txTo : CTransaction} {nIn n : Nat}

/-- What `CheckLockTime` has established, without machine integers. -/
theorem checkLockTime_eq_true {nLockTime : Int64} (h : checkLockTime nLockTime txTo nIn) :
    ((txTo.nLockTime.toNat : Int) < LOCKTIME_THRESHOLD.toInt ↔
      nLockTime.toInt < LOCKTIME_THRESHOLD.toInt) ∧
    nLockTime.toInt ≤ txTo.nLockTime.toNat ∧
    ∃ txin ∈ txTo.vin, txin.nSequence ≠ SEQUENCE_FINAL := by
  simp only [checkLockTime] at h
  split_ifs at h with hkind hless
  simp only [Bool.not_eq_true', Bool.not_eq_false, Bool.or_eq_true, Bool.and_eq_true,
    decide_eq_true_eq, Int64.lt_iff_toInt_lt, Int64.le_iff_toInt_le, toInt_of_uint32] at hkind hless
  refine ⟨by omega, by omega, ?_⟩
  split at h
  · cases h
  · next txin hin => exact ⟨txin, mem_of_getElem? hin, by simpa using h⟩

theorem CTransaction.isFinal_cases {tx : CTransaction} {nBlockHeight nBlockTime : Int}
    (h : tx.isFinal nBlockHeight nBlockTime)
    (hin : ∃ txin ∈ tx.vin, txin.nSequence ≠ SEQUENCE_FINAL) :
    tx.nLockTime.toNat = 0 ∨ (tx.nLockTime.toNat : Int) <
        (if (tx.nLockTime.toNat : Int) < LOCKTIME_THRESHOLD.toInt then nBlockHeight else nBlockTime) := by
  unfold isFinal at h
  simp only [Bool.or_eq_true, beq_iff_eq, decide_eq_true_eq, all_eq_true] at h
  rcases h with (h | h) | h
  · exact .inl (by rw [h]; rfl)
  · exact .inr h
  · obtain ⟨txin, hmem, hne⟩ := hin
    exact absurd (h txin hmem) hne

/-- If `VerifyScript` succeeds with `CHECKLOCKTIMEVERIFY` and the transaction is final in a block,
every operand of an executed `OP_CHECKLOCKTIMEVERIFY` is below its height or time. -/
theorem lockTime_lt_of_isFinal (ctx : ScriptContext) (scriptSig scriptPubKey : CScript)
    (log : List Check) (nBestHeight nAdjustedTime nBlockHeight nBlockTime : Int)
    (hflag : hasFlag ctx.flags SCRIPT_VERIFY_CHECKLOCKTIMEVERIFY = true)
    (hverify : verifyScriptLog ctx scriptSig scriptPubKey = some log)
    (hheight : 1 ≤ nBlockHeight) (htime : 1 ≤ nBlockTime)
    (hfinal : ctx.txTo.isFinalIn nBestHeight nAdjustedTime nBlockHeight nBlockTime = true)
    (stack : List Valtype) (hexec : Check.lockTime stack ∈ log) :
    ∃ vch rest nLockTime, stack = vch :: rest ∧ castToBigNum vch = some nLockTime ∧
      (nLockTime < LOCKTIME_THRESHOLD.toInt → nLockTime < nBlockHeight) ∧
      (LOCKTIME_THRESHOLD.toInt ≤ nLockTime → nLockTime < nBlockTime) := by
  have hpass := verifyScriptLog_passed hverify _ hexec
  rw [ScriptContext.passes, hflag, Bool.not_true] at hpass
  unfold CTransaction.isFinalIn at hfinal
  unfold ScriptContext.lockTimeOk at hpass
  split at hpass
  · cases hpass
  · next vch rest =>
    split at hpass
    · cases hpass
    · next nLockTime hcast =>
      split at hpass
      · cases hpass
      · next hneg =>
        obtain ⟨hkind, hle, hin⟩ := checkLockTime_eq_true hpass
        rw [toInt_getuint64 (by omega) (castToBigNum_lt hcast)] at hkind hle
        refine ⟨vch, rest, nLockTime, rfl, hcast, ?_⟩
        rcases ctx.txTo.isFinal_cases hfinal hin with hzero | hlt
        · -- a lock time of 0 is final at once, and bounds the operand by 0
          omega
        · split at hlt <;> omega

/-! ### A lock that is over -/

def lockedSpend : CTransaction := ⟨1, 1599999000, [⟨⟨7, 0⟩, [], 0⟩], [⟨5, [0x51]⟩], 100⟩

def lockedContext : ScriptContext :=
  ⟨Crypto.sample, lockedSpend, 0, SCRIPT_VERIFY_P2SH ||| SCRIPT_VERIFY_CHECKLOCKTIMEVERIFY, 0⟩

/-- A lock at height 100 is met in block 101. -/
theorem lockedSpend_lock : verifyScriptLog lockedContext [] [0x01, 0x64, 0xb1] =
      some [.lockTime [[100]]] ∧ lockedSpend.isFinalIn 0 0 101 1 = true ∧
    ∃ nLockTime, castToBigNum [100] = some nLockTime ∧ nLockTime < 101 := by
  have hverify : verifyScriptLog lockedContext [] [0x01, 0x64, 0xb1] =
      some [.lockTime [[100]]] := by decide +kernel
  have hfinal : lockedSpend.isFinalIn 0 0 101 1 := by decide
  obtain ⟨vch, rest, nLockTime, hstack, hcast, hheight, -⟩ := lockTime_lt_of_isFinal lockedContext
    [] [0x01, 0x64, 0xb1] _ 0 0 101 1 (by decide) hverify (by decide) (by decide) hfinal [[100]]
    (by simp)
  cases hstack
  have hoperand : castToBigNum [100] = some 100 := by decide +kernel
  refine ⟨hverify, hfinal, nLockTime, hcast, hheight ?_⟩
  rw [hoperand] at hcast
  cases hcast
  decide

/-! ## The relative lock -/

/-- The two fields of a sequence number that are compared: the type flag and the value. -/
theorem and_lockTimeMask (n : Nat) : n &&& (SEQUENCE_LOCKTIME_TYPE_FLAG |||
    SEQUENCE_LOCKTIME_MASK).toNat =
      (n &&& SEQUENCE_LOCKTIME_TYPE_FLAG.toNat) + (n &&& SEQUENCE_LOCKTIME_MASK.toNat) := by
  have hmask : n &&& SEQUENCE_LOCKTIME_MASK.toNat < 2 ^ 22 := Nat.and_le_right.trans_lt (by decide)
  have htype : n &&& SEQUENCE_LOCKTIME_TYPE_FLAG.toNat = 2 ^ 22 * (n.testBit 22).toNat := by
    rw [show SEQUENCE_LOCKTIME_TYPE_FLAG.toNat = 2 ^ 22 from rfl, Nat.and_two_pow, Nat.mul_comm]
  rw [UInt32.toNat_or, Nat.and_or_distrib_left, htype, Nat.two_pow_add_eq_or_of_lt hmask]

theorem and_typeFlag (n : Nat) : n &&& SEQUENCE_LOCKTIME_TYPE_FLAG.toNat = 0 ∨
    n &&& SEQUENCE_LOCKTIME_TYPE_FLAG.toNat = SEQUENCE_LOCKTIME_TYPE_FLAG.toNat := by
  rw [show SEQUENCE_LOCKTIME_TYPE_FLAG.toNat = 2 ^ 22 from rfl, Nat.and_two_pow]
  cases n.testBit 22 <;> simp

theorem toInt_and_uint32 (hn : n < 2 ^ 63) (m : UInt32) :
    ((UInt64.ofNat n).toInt64 &&& m.toUInt64.toInt64).toInt = (n &&& m.toNat : Nat) := by
  have hm := m.toNat_lt
  have hle : n &&& m.toNat ≤ m.toNat := Nat.and_le_right
  have hand : (UInt64.ofNat n &&& m.toUInt64).toNat = n &&& m.toNat := by
    rw [UInt64.toNat_and, UInt64.toNat_ofNat_of_lt' (show n < 2 ^ 64 by omega),
      UInt32.toNat_toUInt64]
  show (UInt64.ofNat n &&& m.toUInt64).toBitVec.toInt = _
  rw [BitVec.toInt_eq_toNat_of_lt (by rw [UInt64.toNat_toBitVec, hand]; omega),
    UInt64.toNat_toBitVec, hand]

/-- The sequence number of an input meets an operand: a relative lock of the same kind, at least as
long. -/
structure SequenceMet (nSequence : UInt32) (operand : Nat) : Prop where
  enabled : nSequence &&& SEQUENCE_LOCKTIME_DISABLE_FLAG = 0
  kind : nSequence.toNat &&& SEQUENCE_LOCKTIME_TYPE_FLAG.toNat =
    operand &&& SEQUENCE_LOCKTIME_TYPE_FLAG.toNat
  value : operand &&& SEQUENCE_LOCKTIME_MASK.toNat ≤
    nSequence.toNat &&& SEQUENCE_LOCKTIME_MASK.toNat

theorem checkSequence_eq_true (hn : n < 2 ^ 63) {txin : CTxIn} (hin : txTo.vin[nIn]? = some txin)
    (h : checkSequence (UInt64.ofNat n).toInt64 txTo nIn) :
    SequenceMet txin.nSequence n := by
  unfold checkSequence at h
  rw [hin] at h
  simp only at h
  split_ifs at h with hdisabled hkind
  simp only [Bool.not_eq_true', Bool.not_eq_false, Bool.or_eq_true, Bool.and_eq_true,
    decide_eq_true_eq, Int64.lt_iff_toInt_lt, Int64.le_iff_toInt_le, toInt_of_uint32,
    toInt_and_uint32 hn, UInt32.toNat_and, and_lockTimeMask, decide_eq_false_iff_not] at hkind h
  have hmask₁ : n &&& SEQUENCE_LOCKTIME_MASK.toNat < SEQUENCE_LOCKTIME_TYPE_FLAG.toNat :=
    Nat.and_le_right.trans_lt (by decide)
  have hmask₂ : txin.nSequence.toNat &&& SEQUENCE_LOCKTIME_MASK.toNat <
      SEQUENCE_LOCKTIME_TYPE_FLAG.toNat := Nat.and_le_right.trans_lt (by decide)
  have htype₁ := and_typeFlag n
  have htype₂ := and_typeFlag txin.nSequence.toNat
  exact ⟨by simpa using hdisabled, by omega, by omega⟩

/-- All that `ConnectBlock` asks for `OP_CHECKSEQUENCEVERIFY` is a sequence number that meets the
operand. -/
theorem sequence_of_connectBlock (env : Env) (db : TxDB) (pindex : CBlockIndex) (pprev : PIndex)
    (b : CBlock) (fJustCheck : Bool) (r : TxDB × CBlockIndex)
    (h : connectBlock env db pindex pprev b fJustCheck = .ok r)
    (hscripts : env.getTotalBlocksEstimate ≤ pindex.nHeight)
    (before after : List CTransaction) (tx : CTransaction) (hvtx : b.vtx = before ++ tx :: after)
    (hcb : tx.isCoinBase = false) (htime : CHECKSEQUENCEVERIFY_SWITCH_TIME ≤ tx.nTime)
    (nIn : Nat) (txin : CTxIn) (hin : tx.vin[nIn]? = some txin) :
    ∃ s txout log, Rounds env db pindex fJustCheck (.init pindex b fJustCheck) before s ∧
      prevOut env (view db s.mapQueuedChanges) txin.prevout = some txout ∧
      verifyScriptLog ⟨env.crypto, tx, nIn, connectBlockFlags tx.nTime, 0⟩ txin.scriptSig
        txout.scriptPubKey = some log ∧
      ∀ stack, .sequence stack ∈ log → ∃ vch rest nSequence, stack = vch :: rest ∧
        castToBigNum vch = some nSequence ∧ 0 ≤ nSequence ∧
        ((Int32.ofInt (getint32 nSequence)).toUInt32 &&& SEQUENCE_LOCKTIME_DISABLE_FLAG = 0 →
          SequenceMet txin.nSequence nSequence.toNat) := by
  obtain ⟨s, inputs, queue, vChecks, hrounds, hspend, hall⟩ := connectBlock_spends h hvtx hcb
  rw [decide_eq_true hscripts] at hspend
  have hmem : (txin, nIn) ∈ tx.vin.zipIdx := mem_zipIdx_iff_getElem?.mpr hin
  obtain ⟨txPrev, hprev, hrun⟩ := hspend.script hcb hall (txin, nIn) hmem
  obtain ⟨txindex, txPrev', txout, hok⟩ := hspend.inputOk hcb txin (mem_of_getElem? hin)
  have hsame : txPrev' = txPrev := by
    rw [MapPrevTx.txPrev, hok.found] at hprev
    exact Option.some.inj hprev
  subst hsame
  obtain ⟨log, hlog⟩ := Option.isSome_iff_exists.mp hrun
  simp only [CScriptCheck.new, hok.vout, hin, Option.map_some, Option.getD_some] at hlog
  refine ⟨s, txout, log, hrounds, ?_, hlog, fun stack hexec => ?_⟩
  · exact hok.prevOut_eq (fetchInputs_eq_ok (by rfl) hspend.fetched)
  · have hpass := verifyScriptLog_passed hlog _ hexec
    have hflag : hasFlag (connectBlockFlags tx.nTime) SCRIPT_VERIFY_CHECKSEQUENCEVERIFY := by
      rw [connectBlockFlags]
      split <;> decide
    rw [ScriptContext.passes, hflag, Bool.not_true] at hpass
    unfold ScriptContext.sequenceOk at hpass
    split at hpass
    · cases hpass
    · next vch rest =>
      split at hpass
      · cases hpass
      · next nSequence hcast =>
        split at hpass
        · cases hpass
        · next hneg =>
          refine ⟨vch, rest, nSequence, rfl, hcast, by omega, fun henabled => ?_⟩
          rw [if_neg (by simpa using henabled)] at hpass
          have hlt := castToBigNum_lt hcast
          rw [getuint64_eq (by omega) (by omega)] at hpass
          exact checkSequence_eq_true (by omega) hin hpass

/-! ### A lock that is not kept -/

def lockingTx : CTransaction :=
  { coinbaseSpend with vout := [⟨2, [0x5a, 0xb2]⟩, ⟨2, [0x03, 0x01, 0x00, 0x40, 0xb2]⟩] }

def earlySpend : CTransaction :=
  { sampleTx [] [3] with
    nTime := 1646000000
    vin := [⟨⟨Crypto.sample.txHash lockingTx, 0⟩, [], 10⟩,
      ⟨⟨Crypto.sample.txHash lockingTx, 1⟩, [], 0x400001⟩] }

def earlyBlock : CBlock :=
  { sampleBlock [numberedCoinbase 11, lockingTx, earlySpend] with nTime := 1650000000 }

def earlyChain : Chain :=
  (sampleIndex 11 11000, earlyBlock) ::
  [10, 9, 8, 7, 6, 5, 4, 3, 2, 1].map fun n : UInt32 =>
    (sampleIndex n.toNat (1000 * n), sampleBlock [numberedCoinbase n.toUInt8])

def earlyEnv : Env :=
  { Env.sample with getAdjustedTime := 1650000000, readTx := sampleDisk earlyChain }

/-- The block can be connected. -/
theorem exists_connect_earlyBlock : ∃ db chain r,
    Reachable Crypto.sample [sampleIndex 0 8] db chain ∧
    connectBlock earlyEnv db (sampleIndex 11 11000) (chain.pindex [sampleIndex 0 8]) earlyBlock
      false = .ok r := by
  obtain ⟨r, hrun⟩ : ∃ r, connectBlocks earlyEnv [sampleIndex 0 8] earlyChain = .ok r := by
    decide +kernel
  obtain ⟨⟨db, chain⟩, hrest, hrun⟩ := bind_eq_ok.mp hrun
  obtain ⟨r, hconnect, -⟩ := bind_eq_ok.mp hrun
  exact ⟨db, chain, r, reachable_of_connectBlocks hrest (by decide), hconnect⟩

/-- The operand is checked against the `nSequence` of the input. -/
theorem earlySpend_sequence : ∃ db chain r s txout log,
    connectBlock earlyEnv db (sampleIndex 11 11000) (Chain.pindex chain [sampleIndex 0 8]) earlyBlock
      false = .ok r ∧
    Rounds earlyEnv db (sampleIndex 11 11000) false (.init (sampleIndex 11 11000) earlyBlock false)
      [numberedCoinbase 11, lockingTx] s ∧
    prevOut earlyEnv (view db s.mapQueuedChanges) ⟨Crypto.sample.txHash lockingTx, 0⟩ = some txout ∧
    verifyScriptLog ⟨Crypto.sample, earlySpend, 0, connectBlockFlags 1646000000, 0⟩ []
      txout.scriptPubKey = some log := by
  obtain ⟨db, chain, r, -, hconnect⟩ := exists_connect_earlyBlock
  obtain ⟨s, txout, log, hrounds, hprev, hlog, -⟩ := sequence_of_connectBlock earlyEnv db
    (sampleIndex 11 11000) (chain.pindex [sampleIndex 0 8]) earlyBlock false r hconnect (by decide)
    [numberedCoinbase 11, lockingTx] [] earlySpend rfl (by decide) (by decide) 0
    ⟨⟨Crypto.sample.txHash lockingTx, 0⟩, [], 10⟩ rfl
  exact ⟨db, chain, r, s, txout, log, hconnect, hrounds, hprev, hlog⟩

/-- Outputs locked for ten blocks and for 512 seconds are spent in the block that creates them. -/
theorem earlySpend_connected : ∃ db chain pindex,
    Reachable Crypto.sample [sampleIndex 0 8] db ((pindex, earlyBlock) :: chain) ∧
    lockingTx ∈ earlyBlock.vtx ∧ earlySpend ∈ earlyBlock.vtx ∧
    CHECKSEQUENCEVERIFY_SWITCH_TIME ≤ earlySpend.nTime ∧
    earlySpend.vin.map (·.prevout) =
      [⟨Crypto.sample.txHash lockingTx, 0⟩, ⟨Crypto.sample.txHash lockingTx, 1⟩] ∧
    -- the executed operands: ten blocks, and one unit of 512 seconds
    verifyScriptLog ⟨Crypto.sample, earlySpend, 0, connectBlockFlags earlySpend.nTime, 0⟩ []
      [0x5a, 0xb2] = some [.sequence [[10]]] ∧
    verifyScriptLog ⟨Crypto.sample, earlySpend, 1, connectBlockFlags earlySpend.nTime, 0⟩ []
      [0x03, 0x01, 0x00, 0x40, 0xb2] = some [.sequence [[0x01, 0x00, 0x40]]] ∧
    lockingTx.vout.map (·.scriptPubKey) = [[0x5a, 0xb2], [0x03, 0x01, 0x00, 0x40, 0xb2]] ∧
    castToBigNum [10] = some 10 ∧ castToBigNum [0x01, 0x00, 0x40] = some 0x400001 ∧
    ¬ ((10 &&& SEQUENCE_LOCKTIME_MASK.toNat : Nat) : Int) ≤ pindex.nHeight - pindex.nHeight ∧
    ¬ 512 * ((0x400001 &&& SEQUENCE_LOCKTIME_MASK.toNat : Nat) : Int) ≤
      earlyBlock.getBlockTime - earlyBlock.getBlockTime := by
  obtain ⟨db, chain, ⟨db', pindex⟩, hreach, hconnect⟩ := exists_connect_earlyBlock
  refine ⟨db', chain, pindex, .connect hreach rfl (by decide) hconnect, .tail _ (.head _),
    .tail _ (.tail _ (.head _)), by decide, rfl, by decide +kernel, by decide +kernel, rfl,
    by decide +kernel, by decide +kernel, ?_, ?_⟩
  · rw [sub_self]
    decide
  · rw [sub_self]
    decide

end NovaCoin
