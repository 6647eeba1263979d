import NovaCoin.Spec.Inputs

/-!
# What ConnectBlock and DisconnectBlock do to the index

`CheckedBlock` is what `CheckBlock` has established, `ConnectedTx` what one round of the loop of
`ConnectBlock` has. The loop is `connectAll` on the items of the block, and so is the written index
(`connectBlock_eq_ok`); `DisconnectBlock` is `disconnectAll` on the same items
(`disconnectBlock_eq_ok`).
-/

namespace NovaCoin

open Guard SpentIndex List

/-! ## CheckBlock -/

variable {tx : CTransaction} {env : Env} {hash : Uint256} {db db' : TxDB} {pprev : PIndex}
  {s s' : ConnectState} {args : ConnectArgs} {inputs : MapPrevTx} {queue : QueuedChanges}
  {pindex : CBlockIndex} {fJustCheck fScriptChecks : Bool} {b : CBlock}

theorem CTransaction.nodup_of_checkTransaction (h : tx.checkTransaction = .ok ()) :
    (tx.vin.map (·.prevout)).Nodup := by
  simp only [checkTransaction, bind_eq_ok, require_eq_ok, exists_const] at h
  obtain ⟨-, -, -, _, -, hd, -⟩ := h
  exact of_decide_eq_true hd

structure CheckedBlock (env : Env) (b : CBlock) (coinbase : CTransaction) (rest : List CTransaction) :
    Prop where
  vtx : b.vtx = coinbase :: rest
  coinbase : coinbase.isCoinBase = true
  not_coinBase : ∀ tx ∈ rest, tx.isCoinBase = false
  not_coinStake : b.isProofOfWork = true → ∀ tx ∈ rest, tx.isCoinStake = false
  checked : ∀ tx ∈ b.vtx, tx.checkTransaction = .ok ()
  nodup : (b.vtx.map env.txHash).Nodup

theorem checkOrdinary_eq_ok (h : checkOrdinary b tx = .ok ()) :
    tx.isCoinBase = false ∧ tx.isCoinStake = false ∧ tx.checkTransaction = .ok () := by
  simp only [checkOrdinary, bind_eq_ok, require_eq_ok, exists_const, mapError_eq_ok, Bool.not_eq_true'] at h
  exact ⟨h.1, h.2.1, h.2.2.2⟩

theorem checkKind_eq_ok {coinbase : CTransaction} {fPOW fSig : Bool}
    (h : checkKind env b coinbase fPOW fSig = .ok ()) (hs : b.isProofOfStake)
    (htx : b.vtx[1]? = some tx) : tx.checkTransaction = .ok () := by
  rw [checkKind, if_pos hs] at h
  simp only [htx, checkStakePart, bind_eq_ok, require_eq_ok, exists_const, getOr_eq_ok,
    mapError_eq_ok, Option.some.injEq] at h
  obtain ⟨_, rfl, -, -, -, -, h⟩ := h
  exact h

/-- What the checks that passed say of the block, as one record. -/
theorem checkBlock_eq_ok {fPOW fRoot fSig : Bool} (h : checkBlock env b fPOW fRoot fSig = .ok ()) :
    ∃ coinbase rest, CheckedBlock env b coinbase rest := by
  simp only [checkBlock, bind_eq_ok, require_eq_ok, exists_const, getOr_eq_ok, mapError_eq_ok] at h
  obtain ⟨-, coinbase, hhead, hcb, _, hct, _, hkind, _, hord, hu, -⟩ := h
  obtain ⟨rest, hvtx⟩ : ∃ rest, b.vtx = coinbase :: rest := by
    cases hv : b.vtx with
    | nil => simp [hv] at hhead
    | cons c rest =>
      rw [hv, head?_cons, Option.some.injEq] at hhead
      exact ⟨rest, by rw [hhead]⟩
  have hnodup := nodup_of_uniqueTxCount (beq_iff_eq.mp hu)
  refine ⟨coinbase, rest, ?_⟩
  cases hs : b.isProofOfStake with
  | false =>
    have hall : ∀ tx ∈ rest, checkOrdinary b tx = .ok () := by
      simpa [hs, hvtx] using hord
    refine ⟨hvtx, hcb, ?_, ?_, ?_, hnodup⟩
    · exact fun tx htx => (checkOrdinary_eq_ok (hall tx htx)).1
    · exact fun _ tx htx => (checkOrdinary_eq_ok (hall tx htx)).2.1
    · rw [hvtx]
      exact forall_mem_cons.mpr ⟨hct, fun tx htx => (checkOrdinary_eq_ok (hall tx htx)).2.2⟩
  | true =>
    -- the coinstake is the second transaction
    obtain ⟨coinstake, rest', rfl⟩ : ∃ coinstake rest', rest = coinstake :: rest' := by
      cases rest with
      | nil => simp [CBlock.isProofOfStake, hvtx] at hs
      | cons c r => exact ⟨c, r, rfl⟩
    have hstake : coinstake.isCoinStake := by
      simpa [CBlock.isProofOfStake, hvtx] using hs
    have hall : ∀ tx ∈ rest', checkOrdinary b tx = .ok () := by
      simpa [hs, hvtx] using hord
    have hcs : coinstake.checkTransaction = .ok () := checkKind_eq_ok hkind hs (by rw [hvtx]; rfl)
    refine ⟨hvtx, hcb, ?_, ?_, ?_, hnodup⟩
    · refine forall_mem_cons.mpr ⟨?_, fun tx htx => (checkOrdinary_eq_ok (hall tx htx)).1⟩
      by_contra hc
      rw [Bool.not_eq_false] at hc
      rw [CTransaction.isCoinStake_of_isCoinBase hc] at hstake
      cases hstake
    · intro hw
      simp [CBlock.isProofOfWork, hs] at hw
    · rw [hvtx]
      refine forall_mem_cons.mpr ⟨hct, forall_mem_cons.mpr ⟨hcs, ?_⟩⟩
      exact fun tx htx => (checkOrdinary_eq_ok (hall tx htx)).2.2

/-! ## One transaction -/

/-- How `ConnectBlock` calls `ConnectInputs`. -/
def blockArgs (env : Env) (pindex : PIndex) (fScriptChecks : Bool) (posThisTx : CDiskTxPos)
    (tx : CTransaction) : ConnectArgs :=
  { posThisTx, pindexBlock := pindex, fBlock := true, fMiner := false, fScriptChecks,
    flags := connectBlockFlags tx.nTime, pvChecks := env.nScriptCheckThreads != 0 }

/-- What an ordinary transaction leaves to the block; coinbase and coinstake pay no fee. -/
def CTransaction.exactFee (env : Env) (idx : Index Uint256 CDiskTxPos) (tx : CTransaction) : Int :=
  if tx.isCoinBase || tx.isCoinStake then 0 else tx.exactValueIn env idx - tx.exactValueOut

/-- The amounts of a transaction connected to `idx`, and how the sums changed from `s` to `s'`. -/
structure Amounts (env : Env) (idx : Index Uint256 CDiskTxPos) (s : ConnectState)
    (tx : CTransaction) (s' : ConnectState) : Prop where
  nValueOut : s'.nValueOut = s.nValueOut + Int64.ofInt tx.exactValueOut
  nValueIn : s'.nValueIn = s.nValueIn + Int64.ofInt (tx.exactValueIn env idx)
  nFees : s'.nFees = s.nFees + Int64.ofInt (tx.exactFee env idx)
  fee_nonneg : 0 ≤ tx.exactFee env idx
  fee_lt : tx.exactFee env idx < 2 ^ 63

/-- A round of the loop of `ConnectBlock` from `s` to `s'`. -/
structure ConnectedTx (env : Env) (db : TxDB) (pos : CDiskTxPos) (s : ConnectState)
    (tx : CTransaction) (s' : ConnectState) : Prop where
  allSpent : AllSpent (index db) (env.txHash tx)
  unspent : ∀ o ∈ (tx.item env.crypto pos).spends, Unspent (view db s.mapQueuedChanges) o
  resolved : ∀ o ∈ tx.spends, (prevOut env (view db s.mapQueuedChanges) o).isSome
  view : view db s'.mapQueuedChanges = connect (view db s.mapQueuedChanges) (tx.item env.crypto pos)
  amounts : Amounts env (NovaCoin.view db s.mapQueuedChanges) s tx s'

section Amounts

variable {idx : Index Uint256 CDiskTxPos}

theorem toInt_sub_of_le {a b : Int64} (hb : moneyRange b) (h : b ≤ a) :
    (a - b).toInt = a.toInt - b.toInt := by
  rw [moneyRange_iff] at hb
  rw [Int64.le_iff_toInt_le] at h
  have hlt := a.toInt_lt
  rw [Int64.toInt_sub, Int.bmod_def]
  split <;> omega

theorem checkFee_eq_ok {nValueIn nValueOut : Int64} (h : checkFee tx nValueIn = .ok ())
    (hout : tx.getValueOut = .ok nValueOut) : nValueOut ≤ nValueIn := by
  obtain ⟨v, hv, h⟩ := bind_eq_ok.mp h
  rw [hout] at hv
  cases hv
  obtain ⟨hle, -⟩ := require_bind_eq_ok.mp h
  exact of_decide_eq_true hle

/-- The sum of the first loop of `ConnectInputs` is the total of the inputs. -/
theorem exactValueIn_eq (hcb : tx.isCoinBase = false) (hf : Fetched env idx inputs) {v : Int64}
    (h : foldAll (checkInput env args tx inputs) 0 tx.vin = .ok v) :
    v.toInt = tx.exactValueIn env idx := by
  rw [CTransaction.exactValueIn, CTransaction.spends_of_not_isCoinBase hcb, map_map]
  refine checkInputs_sum h fun txin _ txindex txPrev txout hok => ?_
  rw [Function.comp_apply, prevValue, hok.prevOut_eq hf]
  rfl

end Amounts

theorem overwritesUnspent_eq_false :
    overwritesUnspent db hash = false ↔ AllSpent (index db) hash := by
  rw [allSpent_iff]
  unfold overwritesUnspent index
  cases db.lookup hash with
  | none => simp
  | some e =>
    simp only [any_eq_false, Option.some.injEq, forall_eq']
    exact forall₂_congr fun p _ => iff_of_eq (Bool.not_eq_true (isNull p))

theorem map_fst_zipIdx (vin : List CTxIn) :
    vin.zipIdx.map (·.1.prevout.slot) = vin.map (·.prevout.slot) := by
  conv_rhs => rw [← zipIdx_map_fst 0 vin, map_map]
  rfl

theorem view_insert_item {crypto : Crypto} {pos : CDiskTxPos} {idx : Index Uint256 CDiskTxPos}
    (h : view db queue = markAll idx (tx.item crypto pos).spends pos) :
    view db (queue.insert (crypto.txHash tx) (CTxIndex.new pos tx.vout.length)) =
      connect idx (tx.item crypto pos) := by
  rw [view_insert, h]
  rfl

theorem connectInputs_eq_ok {queue' : QueuedChanges} {vChecks : List CScriptCheck}
    (hb : (args.fBlock || args.fMiner)) (hcb : tx.isCoinBase = false)
    (hd : (tx.vin.map (·.prevout)).Nodup) (hf : Fetched env (view db queue) inputs)
    (h : connectInputs env db inputs queue args tx = .ok (queue', vChecks)) :
    (∀ o ∈ tx.vin.map (·.prevout.slot), Unspent (view db queue) o) ∧
      view db queue' = markAll (view db queue) (tx.vin.map (·.prevout.slot)) args.posThisTx ∧
      ∃ nValueIn, foldAll (checkInput env args tx inputs) 0 tx.vin = .ok nValueIn ∧
        checkAmounts env db args tx nValueIn = .ok () := by
  obtain ⟨nValueIn, hsum, s, hspend, hamount, rfl, rfl⟩ := (connectInputs_iff hcb).mp h
  have hnodup : (tx.vin.map (·.prevout.slot)).Nodup := by
    have := hd.map COutPoint.slot_injective
    rwa [map_map] at this
  have hsync : InSync db ⟨inputs, queue, []⟩ := fun hash e t ht => (hf hash e t ht).1
  obtain ⟨hu, hv⟩ := spendInputs_view hb hspend hsync (by rwa [map_fst_zipIdx])
  rw [map_fst_zipIdx] at hu hv
  exact ⟨hu, hv, nValueIn, hsum, hamount⟩

def ConnectState.pos (s : ConnectState) (pindex : CBlockIndex) : CDiskTxPos :=
  ⟨pindex.nFile, pindex.nBlockPos, s.nTxPos⟩

theorem connectTx_iff :
    connectTx env db (pindex :: pprev) fJustCheck fScriptChecks s tx = .ok s' ↔
      AllSpent (index db) (env.txHash tx) ∧
      s.nSigOps + tx.getLegacySigOpCount ≤ MAX_BLOCK_SIGOPS ∧
      ∃ s₁, connectAmounts env db (pindex :: pprev) fScriptChecks (s.pos pindex)
          { s with
            nSigOps := s.nSigOps + tx.getLegacySigOpCount
            nTxPos := nextTxPos fJustCheck s.nTxPos tx } tx = .ok s₁ ∧
        { s₁ with
          mapQueuedChanges := s₁.mapQueuedChanges.insert (env.txHash tx)
            (CTxIndex.new (s.pos pindex) tx.vout.length) } = s' := by
  simp only [connectTx, bind_eq_ok, require_eq_ok, exists_const, Bool.not_eq_true', overwritesUnspent_eq_false,
    decide_eq_true_eq, head?_cons, getOr_eq_ok, Option.some.injEq, exists_eq_left',
    pure, Except.pure, Except.ok.injEq]
  rfl

theorem connectSpends_iff {pos : CDiskTxPos} :
    connectSpends env db (pindex :: pprev) fScriptChecks pos s tx = .ok s' ↔
      ∃ inputs, fetchInputs env db s.mapQueuedChanges true false tx = .ok inputs ∧
      ∃ nP2SHSigOps, tx.getP2SHSigOpCount inputs = .ok nP2SHSigOps ∧
        s.nSigOps + nP2SHSigOps ≤ MAX_BLOCK_SIGOPS ∧
      ∃ nTxValueIn, tx.getValueIn inputs = .ok nTxValueIn ∧
      ∃ nTxValueOut, tx.getValueOut = .ok nTxValueOut ∧
      ∃ queue vChecks, connectInputs env db inputs s.mapQueuedChanges
          (blockArgs env (pindex :: pprev) fScriptChecks pos tx) tx = .ok (queue, vChecks) ∧
        { s with
          mapQueuedChanges := queue
          nFees := if tx.isCoinStake then s.nFees else s.nFees + (nTxValueIn - nTxValueOut)
          nValueIn := s.nValueIn + nTxValueIn
          nValueOut := s.nValueOut + nTxValueOut
          nSigOps := s.nSigOps + nP2SHSigOps
          vChecks := s.vChecks ++ vChecks } = s' := by
  simp only [connectSpends, bind_eq_ok, require_eq_ok, exists_const, mapError_eq_ok,
    decide_eq_true_eq, Prod.exists, pure, Except.pure, Except.ok.injEq]
  rfl

theorem connectAmounts_of_coinBase {pos : CDiskTxPos} (hcb : tx.isCoinBase)
    (h : connectAmounts env db (pindex :: pprev) fScriptChecks pos s tx = .ok s') :
    s'.mapQueuedChanges = s.mapQueuedChanges ∧ s'.nTxPos = s.nTxPos ∧
      Amounts env (view db s.mapQueuedChanges) s tx s' := by
  rw [connectAmounts, if_pos hcb] at h
  obtain ⟨v, hv, h⟩ := bind_eq_ok.mp h
  cases h
  have hout := (CTransaction.getValueOut_eq_ok hv).1
  refine ⟨rfl, rfl, ?_, ?_, ?_, ?_, ?_⟩
  · rw [← hout, Int64.ofInt_toInt]
  · simp [CTransaction.exactValueIn, CTransaction.spends_of_isCoinBase hcb]
  all_goals simp [CTransaction.exactFee, hcb]

/-- The inputs are distinct and unspent in the view, and connecting marks just these. -/
theorem connectAmounts_of_spends {pos : CDiskTxPos} (hcb : tx.isCoinBase = false)
    (hd : (tx.vin.map (·.prevout)).Nodup)
    (h : connectAmounts env db (pindex :: pprev) fScriptChecks pos s tx = .ok s') :
    (∀ o ∈ tx.vin.map (·.prevout.slot), Unspent (view db s.mapQueuedChanges) o) ∧
      (∀ o ∈ tx.spends, (prevOut env (view db s.mapQueuedChanges) o).isSome) ∧
      view db s'.mapQueuedChanges =
        markAll (view db s.mapQueuedChanges) (tx.vin.map (·.prevout.slot)) pos ∧
      s'.nTxPos = s.nTxPos ∧ Amounts env (view db s.mapQueuedChanges) s tx s' := by
  rw [connectAmounts, if_neg (by simp [hcb]), connectSpends_iff] at h
  obtain ⟨inputs, hfetch, _, -, -, nTxValueIn, hin, nTxValueOut, hout, _, _, hconnect, rfl⟩ := h
  have hf := fetchInputs_eq_ok (by rfl) hfetch
  obtain ⟨hu, hv, nValueIn, hsum, hamount⟩ := connectInputs_eq_ok (by rfl) hcb hd hf hconnect
  obtain rfl := getValueIn_eq_checkInputs hcb hin hsum
  have hein : nTxValueIn.toInt = tx.exactValueIn env (view db s.mapQueuedChanges) :=
    exactValueIn_eq hcb hf hsum
  obtain ⟨heout, hrout⟩ := CTransaction.getValueOut_eq_ok hout
  have hfees : s.nFees + (if tx.isCoinStake then 0 else nTxValueIn - nTxValueOut) =
      s.nFees + Int64.ofInt (tx.exactFee env (view db s.mapQueuedChanges)) ∧
      0 ≤ tx.exactFee env (view db s.mapQueuedChanges) ∧
      tx.exactFee env (view db s.mapQueuedChanges) < 2 ^ 63 := by
    cases hcs : tx.isCoinStake with
    | true => simp [CTransaction.exactFee, hcs]
    | false =>
      have hle : nTxValueOut ≤ nTxValueIn := by
        rw [checkAmounts, if_neg (by simp [hcs])] at hamount
        exact checkFee_eq_ok hamount hout
      have hfee : tx.exactFee env (view db s.mapQueuedChanges) =
          (nTxValueIn - nTxValueOut).toInt := by
        rw [CTransaction.exactFee, hcb, hcs, toInt_sub_of_le hrout hle, hein, heout]
        rfl
      rw [hfee, Int64.ofInt_toInt]
      refine ⟨rfl, ?_, Int64.toInt_lt _⟩
      rw [toInt_sub_of_le hrout hle]
      rw [Int64.le_iff_toInt_le] at hle
      omega
  have hresolved : ∀ o ∈ tx.spends, (prevOut env (view db s.mapQueuedChanges) o).isSome := by
    rw [CTransaction.spends_of_not_isCoinBase hcb, forall_mem_map]
    intro txin htx
    obtain ⟨_, _, _, hok⟩ := checkInputs_all hsum txin htx
    rw [hok.prevOut_eq hf]
    rfl
  refine ⟨hu, hresolved, hv, rfl, ?_, ?_, ?_, hfees.2.1, hfees.2.2⟩
  · rw [← heout, Int64.ofInt_toInt]
  · rw [← hein, Int64.ofInt_toInt]
  · rw [← hfees.1]
    show (if tx.isCoinStake then s.nFees else s.nFees + (nTxValueIn - nTxValueOut)) = _
    split
    · exact (Int64.add_zero _).symm
    · rfl

/-- The step lemma of the loop of `ConnectBlock`. -/
theorem connectTx_eq_ok (hd : (tx.vin.map (·.prevout)).Nodup)
    (h : connectTx env db (pindex :: pprev) fJustCheck fScriptChecks s tx = .ok s') :
    ConnectedTx env db (s.pos pindex) s tx s' ∧
      s'.nTxPos = nextTxPos fJustCheck s.nTxPos tx := by
  obtain ⟨hall, -, s₁, hbody, rfl⟩ := connectTx_iff.mp h
  cases hcb : tx.isCoinBase with
  | true =>
    obtain ⟨hq, hpos, hamounts⟩ := connectAmounts_of_coinBase hcb hbody
    refine ⟨⟨hall, ?_, ?_, ?_, { hamounts with }⟩, hpos⟩
    · rw [CTransaction.item_spends_of_isCoinBase hcb]
      simp
    · rw [CTransaction.spends_of_isCoinBase hcb]
      simp
    · refine view_insert_item ?_
      rw [CTransaction.item_spends_of_isCoinBase hcb, hq]
      rfl
  | false =>
    obtain ⟨hu, hresolved, hv, hpos, hamounts⟩ := connectAmounts_of_spends hcb hd hbody
    refine ⟨⟨hall, ?_, hresolved, ?_, { hamounts with }⟩, hpos⟩
    · rw [CTransaction.item_spends hcb]
      exact hu
    · refine view_insert_item ?_
      rw [CTransaction.item_spends hcb]
      exact hv

/-! ## The loop -/

section Items

variable (crypto : Crypto) (pindex : CBlockIndex) (fJustCheck : Bool)

/-- The transactions of a block with their positions, the first one at `nTxPos`. -/
def txPositions (nTxPos : UInt32) : List CTransaction → List (CDiskTxPos × CTransaction)
  | [] => []
  | tx :: vtx => (⟨pindex.nFile, pindex.nBlockPos, nTxPos⟩, tx) ::
      txPositions (nextTxPos fJustCheck nTxPos tx) vtx

/-- The transactions of a block as items. -/
def blockItems (nTxPos : UInt32) (vtx : List CTransaction) : List (Item Uint256 CDiskTxPos) :=
  (txPositions pindex fJustCheck nTxPos vtx).map fun p => p.2.item crypto p.1

theorem blockItems_cons (nTxPos : UInt32) (tx : CTransaction) (vtx : List CTransaction) :
    blockItems crypto pindex fJustCheck nTxPos (tx :: vtx) =
      tx.item crypto ⟨pindex.nFile, pindex.nBlockPos, nTxPos⟩ ::
        blockItems crypto pindex fJustCheck (nextTxPos fJustCheck nTxPos tx) vtx := rfl

/-- The sum of an amount over the transactions of a block, each at the index it is connected to. -/
def blockSum (f : Index Uint256 CDiskTxPos → CTransaction → Int) (idx : Index Uint256 CDiskTxPos)
    (nTxPos : UInt32) : List CTransaction → Int
  | [] => 0
  | tx :: vtx => f idx tx + blockSum f
      (connect idx (tx.item crypto ⟨pindex.nFile, pindex.nBlockPos, nTxPos⟩))
      (nextTxPos fJustCheck nTxPos tx) vtx

variable {crypto pindex fJustCheck}

theorem blockItems_keys (nTxPos : UInt32) (vtx : List CTransaction) :
    (blockItems crypto pindex fJustCheck nTxPos vtx).map (·.key) = vtx.map crypto.txHash := by
  induction vtx generalizing nTxPos with
  | nil => rfl
  | cons tx vtx ih =>
    rw [blockItems_cons, map_cons, ih]
    rfl

end Items

section Rounds

variable (env : Env) (db : TxDB) (pindex : CBlockIndex) (fJustCheck : Bool)

/-- The rounds of the loop of `ConnectBlock` over a list of transactions. -/
inductive Rounds : ConnectState → List CTransaction → ConnectState → Prop
  | nil (s : ConnectState) : Rounds s [] s
  | cons {s s₁ s' : ConnectState} {tx : CTransaction} {vtx : List CTransaction}
      (connected : ConnectedTx env db (s.pos pindex) s tx s₁)
      (nTxPos : s₁.nTxPos = nextTxPos fJustCheck s.nTxPos tx)
      (nodup : (tx.vin.map (·.prevout)).Nodup)
      (rounds : Rounds s₁ vtx s') : Rounds s (tx :: vtx) s'

variable {env db pindex fJustCheck}

theorem rounds_of_connectLoop :
    ∀ {vtx : List CTransaction} {s s' : ConnectState},
      foldAll (connectTx env db (pindex :: pprev) fJustCheck fScriptChecks) s vtx = .ok s' →
      (∀ tx ∈ vtx, (tx.vin.map (·.prevout)).Nodup) → Rounds env db pindex fJustCheck s vtx s'
  | [], _, _, h, _ => by
    cases h
    exact .nil _
  | tx :: vtx, _, _, h, hd => by
    rw [forall_mem_cons] at hd
    obtain ⟨s₁, h₁, hl⟩ := foldAll_cons_eq_ok.mp h
    obtain ⟨hc, hp⟩ := connectTx_eq_ok hd.1 h₁
    exact .cons hc hp hd.1 (rounds_of_connectLoop hl hd.2)

variable {vtx : List CTransaction}

theorem Rounds.allSpent (h : Rounds env db pindex fJustCheck s vtx s') :
    ∀ tx ∈ vtx, AllSpent (index db) (env.txHash tx) := by
  induction h with
  | nil => simp
  | cons hc _ _ _ ih => exact forall_mem_cons.mpr ⟨hc.allSpent, ih⟩

/-- The loop connects the items of the block one after the other. -/
theorem Rounds.view (h : Rounds env db pindex fJustCheck s vtx s')
    (hf : Fresh (NovaCoin.view db s.mapQueuedChanges) (blockItems env.crypto pindex fJustCheck
      s.nTxPos vtx)) :
    ConnectableAll (NovaCoin.view db s.mapQueuedChanges)
        (blockItems env.crypto pindex fJustCheck s.nTxPos vtx) ∧
      NovaCoin.view db s'.mapQueuedChanges = connectAll (NovaCoin.view db s.mapQueuedChanges)
        (blockItems env.crypto pindex fJustCheck s.nTxPos vtx) := by
  induction h with
  | nil => exact ⟨trivial, rfl⟩
  | @cons s s₁ s' tx vtx hc hp hd _ ih =>
    rw [blockItems_cons, ← hp] at hf ⊢
    have hcan : Connectable (NovaCoin.view db s.mapQueuedChanges) (tx.item env.crypto (s.pos pindex)) := by
      refine ⟨hc.unspent, ?_, hf.allSpent _ mem_cons_self⟩
      unfold CTransaction.item CTransaction.spends
      refine List.Nodup.map COutPoint.slot_injective ?_
      split
      · exact nodup_nil
      · exact hd
    have htail := hf.tail hcan
    rw [show connect (NovaCoin.view db s.mapQueuedChanges)
      (tx.item env.crypto ⟨pindex.nFile, pindex.nBlockPos, s.nTxPos⟩) = _ from hc.view.symm] at htail
    obtain ⟨hall, hv⟩ := ih htail
    rw [hc.view] at hall hv
    exact ⟨⟨hcan, hall⟩, hv⟩

/-- The sums of the block modulo 2^64; fees are never negative. -/
theorem Rounds.amounts (h : Rounds env db pindex fJustCheck s vtx s') :
    let sum := fun f => blockSum env.crypto pindex fJustCheck f (NovaCoin.view db s.mapQueuedChanges)
      s.nTxPos vtx
    s'.nValueOut = s.nValueOut + Int64.ofInt (sum fun _ tx => tx.exactValueOut) ∧
      s'.nValueIn = s.nValueIn + Int64.ofInt (sum fun idx tx => tx.exactValueIn env idx) ∧
      s'.nFees = s.nFees + Int64.ofInt (sum fun idx tx => tx.exactFee env idx) ∧
      0 ≤ sum fun idx tx => tx.exactFee env idx := by
  induction h with
  | nil => simp [blockSum]
  | @cons s s₁ s' tx vtx hc hp _ _ ih =>
    obtain ⟨hout, hin, hfee, hpos⟩ := ih
    rw [hc.view, hp] at hout hin hfee hpos
    have hnow := hc.amounts
    simp only [blockSum, Int64.ofInt_add, ← Int64.add_assoc]
    refine ⟨?_, ?_, ?_, ?_⟩
    · rw [hout, hnow.nValueOut]
      rfl
    · rw [hin, hnow.nValueIn]
      rfl
    · rw [hfee, hnow.nFees]
      rfl
    · exact Int.add_nonneg hnow.fee_nonneg hpos

end Rounds

/-! ## ConnectBlock -/

theorem index_writeQueuedChanges (db : TxDB) (queue : QueuedChanges) :
    index (writeQueuedChanges db queue) = view db queue := by
  obtain ⟨entries, hd⟩ := queue
  funext hash
  show (foldl _ db entries).lookup hash = (entries.dlookup hash).or (db.lookup hash)
  induction entries generalizing db with
  | nil => rfl
  | cons e entries ih =>
    rw [nodupKeys_cons] at hd
    rw [foldl_cons, ih _ hd.2]
    by_cases hk : hash = e.1
    · subst hk
      have hnone : entries.dlookup e.1 = none := dlookup_eq_none.mpr hd.1
      rw [hnone, dlookup_cons_eq]
      simp
    · rw [dlookup_cons_ne _ _ hk, Finmap.lookup_insert_of_ne _ hk]

def CBlock.stored (pindex : CBlockIndex) (b : CBlock) : List (CDiskTxPos × CTransaction) :=
  txPositions pindex false (firstTxPos pindex b false) b.vtx

def CBlock.items (crypto : Crypto) (pindex : CBlockIndex) (b : CBlock) :
    List (Item Uint256 CDiskTxPos) :=
  blockItems crypto pindex false (firstTxPos pindex b false) b.vtx

section ConnectBlock

variable {pindex' : CBlockIndex}

/-- What a successful `ConnectBlock` has checked and done. -/
theorem connectBlock_eq_ok
    (h : connectBlock env db pindex pprev b fJustCheck = .ok (db', pindex')) :
    ∃ coinbase rest s, CheckedBlock env b coinbase rest ∧
      Rounds env db pindex fJustCheck (.init pindex b fJustCheck) b.vtx s ∧
      checkCoinbaseReward env b s.nFees = .ok () ∧
      db' = (if fJustCheck then db else writeQueuedChanges db s.mapQueuedChanges) ∧
      pindex' = { pindex with
        nMint := s.nValueOut - s.nValueIn + s.nFees
        nMoneySupply := (pprev.head?.map (·.nMoneySupply)).getD 0 + s.nValueOut - s.nValueIn } := by
  obtain ⟨_, hcheck, h⟩ := bind_eq_ok.mp h
  obtain ⟨s, hloop, h⟩ := bind_eq_ok.mp h
  obtain ⟨-, h⟩ := require_bind_eq_ok.mp h
  obtain ⟨_, hreward, h⟩ := bind_eq_ok.mp h
  obtain ⟨coinbase, rest, hb⟩ := checkBlock_eq_ok hcheck
  cases h
  refine ⟨coinbase, rest, s, hb, ?_, hreward, rfl, rfl⟩
  exact rounds_of_connectLoop hloop fun tx htx =>
    CTransaction.nodup_of_checkTransaction (hb.checked tx htx)

theorem Rounds.fresh (h : Rounds env db pindex fJustCheck (.init pindex b fJustCheck) b.vtx s')
    (hd : (b.vtx.map env.txHash).Nodup) :
    Fresh (index db)
      (blockItems env.crypto pindex fJustCheck (firstTxPos pindex b fJustCheck) b.vtx) where
  nodup := by rwa [blockItems_keys]
  allSpent t ht := by
    have hk := mem_map_of_mem (f := Item.key) ht
    rw [blockItems_keys] at hk
    obtain ⟨tx, htx, he⟩ := mem_map.mp hk
    rw [← he]
    exact h.allSpent tx htx

/-- `ConnectBlock` connects the items of the block to the index. -/
theorem connectBlock_index (h : connectBlock env db pindex pprev b false = .ok (db', pindex')) :
    Fresh (index db) (b.items env.crypto pindex) ∧ ConnectableAll (index db) (b.items env.crypto pindex) ∧
      index db' = connectAll (index db) (b.items env.crypto pindex) := by
  obtain ⟨coinbase, rest, s, hb, hr, -, rfl, -⟩ := connectBlock_eq_ok h
  have hf := hr.fresh hb.nodup
  have hv := hr.view (by simpa [ConnectState.init] using hf)
  refine ⟨hf, hv.1, ?_⟩
  rw [if_neg (by simp), index_writeQueuedChanges]
  exact hv.2

end ConnectBlock

/-! ## Blocks on disk -/

/-- The block was written by `WriteToDisk`: it gets no null position, starts after the eight bytes
of its header, and its transactions can be read back from where `ConnectBlock` takes them to be. -/
structure OnDisk (disk : CDiskTxPos → Option CTransaction) (pindex : CBlockIndex) (b : CBlock) :
    Prop where
  nFile : pindex.nFile ≠ 0xffffffff
  nBlockPos : pindex.nBlockPos ≠ 1
  readTx : ∀ t ∈ b.stored pindex, disk t.1 = some t.2

theorem stored_nBlockPos {nTxPos : UInt32} {vtx : List CTransaction} :
    ∀ t ∈ txPositions pindex fJustCheck nTxPos vtx, t.1.nBlockPos = pindex.nBlockPos := by
  induction vtx generalizing nTxPos with
  | nil => simp [txPositions]
  | cons tx vtx ih => exact forall_mem_cons.mpr ⟨rfl, ih⟩

/-- No position in the index is the one that stands for the memory pool. -/
def NotInMemory (idx : Index Uint256 CDiskTxPos) : Prop :=
  ∀ hash e, idx hash = some e → e.pos.nBlockPos ≠ 1

theorem readPrev_of_readTx {pos : CDiskTxPos} (hne : pos.nBlockPos ≠ 1) :
    readPrev env hash (some pos) =
      getOr (env.readTx pos) (false, .error "FetchInputs() : ReadFromDisk prev tx failed") := by
  refine if_neg ?_
  rw [beq_iff_eq]
  intro he
  rw [he] at hne
  exact hne rfl

theorem readPrev_eq_ok {pos : CDiskTxPos} {txPrev : CTransaction} (hne : pos.nBlockPos ≠ 1)
    (h : readPrev env hash (some pos) = .ok txPrev) :
    env.readTx pos = some txPrev := by
  rw [readPrev_of_readTx hne] at h
  exact getOr_eq_ok.mp h

/-! ## DisconnectBlock -/

section DisconnectBlock

variable {crypto : Crypto} (pindex : CBlockIndex)

theorem disconnectTxs_eq_ok {vtx : List CTransaction} : ∀ (nTxPos : UInt32) {db db' : TxDB},
    foldAll (disconnectInputs crypto) db vtx.reverse = .ok db' →
      DisconnectableAll (index db) (blockItems crypto pindex fJustCheck nTxPos vtx) ∧
      index db' = disconnectAll (index db) (blockItems crypto pindex fJustCheck nTxPos vtx) := by
  induction vtx with
  | nil =>
    intro nTxPos db db' h
    cases h
    exact ⟨trivial, rfl⟩
  | cons tx vtx ih =>
    intro nTxPos db db' h
    rw [reverse_cons, foldAll_append_eq_ok] at h
    obtain ⟨db₁, h₁, h₂⟩ := h
    obtain ⟨db₂, h₂, h₃⟩ := foldAll_cons_eq_ok.mp h₂
    cases h₃
    obtain ⟨hd, hi⟩ := ih (nextTxPos fJustCheck nTxPos tx) h₁
    obtain ⟨hd', hi'⟩ := disconnectInputs_eq_ok ⟨pindex.nFile, pindex.nBlockPos, nTxPos⟩ h₂
    rw [hi] at hd' hi'
    exact ⟨⟨hd, hd'⟩, hi'⟩

theorem exists_disconnectTxs {vtx : List CTransaction} : ∀ {nTxPos : UInt32} {db : TxDB},
    DisconnectableAll (index db) (blockItems crypto pindex fJustCheck nTxPos vtx) →
      ∃ db', foldAll (disconnectInputs crypto) db vtx.reverse = .ok db' := by
  induction vtx with
  | nil => exact fun {_ db} _ => ⟨db, rfl⟩
  | cons tx vtx ih =>
    intro nTxPos db hd
    rw [blockItems_cons] at hd
    obtain ⟨db₁, h₁⟩ := ih hd.1
    have hlast := hd.2
    rw [← (disconnectTxs_eq_ok pindex _ h₁).2] at hlast
    obtain ⟨db', h'⟩ := exists_disconnectInputs _ hlast
    refine ⟨db', ?_⟩
    rw [reverse_cons, foldAll_append_eq_ok]
    exact ⟨db₁, h₁, foldAll_cons_eq_ok.mpr ⟨db', h', rfl⟩⟩

/-- `DisconnectBlock` disconnects the items of the block, wherever the block is stored. -/
theorem disconnectBlock_eq_ok (h : disconnectBlock crypto db b = .ok db') :
    DisconnectableAll (index db) (b.items crypto pindex) ∧
      index db' = disconnectAll (index db) (b.items crypto pindex) :=
  disconnectTxs_eq_ok pindex _ h

theorem exists_disconnectBlock (hd : DisconnectableAll (index db) (b.items crypto pindex)) :
    ∃ db', disconnectBlock crypto db b = .ok db' :=
  exists_disconnectTxs pindex hd

end DisconnectBlock

/-! ## What ConnectBlock has established of each input

`Rounds` says what the loop does to the index. Here is what it has checked: for every transaction
with inputs the calls of `FetchInputs` and `ConnectInputs` that succeeded, in the state the
transactions before it have left (`SpendingTx`, `connectBlock_spends`), and that the script of every
input was run and has passed (`SpendingTx.script`). -/

/-- The calls that `ConnectBlock` makes for a transaction with inputs in the state `s`. -/
structure SpendingTx (env : Env) (db : TxDB) (pindex : PIndex) (fScriptChecks : Bool)
    (pos : CDiskTxPos) (s : ConnectState) (tx : CTransaction) (inputs : MapPrevTx)
    (queue : QueuedChanges) (vChecks : List CScriptCheck) : Prop where
  fetched : fetchInputs env db s.mapQueuedChanges true false tx = .ok inputs
  connected : connectInputs env db inputs s.mapQueuedChanges
    (blockArgs env pindex fScriptChecks pos tx) tx = .ok (queue, vChecks)

/-! ## One round -/

theorem connectTx_spends (hcb : tx.isCoinBase = false)
    (h : connectTx env db (pindex :: pprev) fJustCheck fScriptChecks s tx = .ok s') :
    ∃ inputs queue vChecks,
      SpendingTx env db (pindex :: pprev) fScriptChecks (s.pos pindex) s tx inputs queue vChecks ∧
      s'.vChecks = s.vChecks ++ vChecks := by
  obtain ⟨-, -, s₁, hbody, rfl⟩ := connectTx_iff.mp h
  rw [connectAmounts, if_neg (by simp [hcb]), connectSpends_iff] at hbody
  obtain ⟨inputs, hfetch, _, -, -, _, -, _, -, queue, vChecks, hconnect, rfl⟩ := hbody
  exact ⟨inputs, queue, vChecks, ⟨hfetch, hconnect⟩, rfl⟩

/-- A round only adds to the script checks. -/
theorem connectTx_vChecks
    (h : connectTx env db (pindex :: pprev) fJustCheck fScriptChecks s tx = .ok s') :
    ∃ vChecks, s'.vChecks = s.vChecks ++ vChecks := by
  cases hcb : tx.isCoinBase with
  | false =>
    obtain ⟨_, _, vChecks, -, hv⟩ := connectTx_spends hcb h
    exact ⟨vChecks, hv⟩
  | true =>
    obtain ⟨-, -, s₁, hbody, rfl⟩ := connectTx_iff.mp h
    rw [connectAmounts, if_pos hcb] at hbody
    obtain ⟨_, -, hbody⟩ := bind_eq_ok.mp hbody
    cases hbody
    exact ⟨[], (append_nil _).symm⟩

theorem connectLoop_vChecks {vtx : List CTransaction}
    (h : foldAll (connectTx env db (pindex :: pprev) fJustCheck fScriptChecks) s vtx = .ok s') :
    ∃ vChecks, s'.vChecks = s.vChecks ++ vChecks := by
  refine foldAll_invariant (I := fun s₁ => ∃ v, s₁.vChecks = s.vChecks ++ v)
    (fun tx _ s₁ s₂ ⟨v₁, hv₁⟩ hstep => ?_) h ⟨[], (append_nil _).symm⟩
  obtain ⟨v, hv⟩ := connectTx_vChecks hstep
  exact ⟨v₁ ++ v, by rw [hv, hv₁, append_assoc]⟩

/-! ## A block -/

section ConnectBlock

variable {r : TxDB × CBlockIndex}

/-- The calls made for a transaction of a block, in the state after those before it. All script
checks have passed. -/
theorem connectBlock_spends (h : connectBlock env db pindex pprev b fJustCheck = .ok r)
    {before after : List CTransaction} (hvtx : b.vtx = before ++ tx :: after)
    (hcb : tx.isCoinBase = false) :
    ∃ s inputs queue vChecks, Rounds env db pindex fJustCheck (.init pindex b fJustCheck) before s ∧
      SpendingTx env db (pindex :: pprev) (env.getTotalBlocksEstimate ≤ pindex.nHeight)
        (s.pos pindex) s tx inputs queue vChecks ∧
      vChecks.all (·.run env.crypto) := by
  obtain ⟨_, hcheck, h⟩ := bind_eq_ok.mp h
  obtain ⟨s', hloop, h⟩ := bind_eq_ok.mp h
  obtain ⟨hall, -⟩ := require_bind_eq_ok.mp h
  obtain ⟨_, _, hb⟩ := checkBlock_eq_ok hcheck
  rw [hvtx] at hloop
  obtain ⟨s, hbefore, hrest⟩ := foldAll_append_eq_ok.mp hloop
  obtain ⟨s₁, htx, hafter⟩ := foldAll_cons_eq_ok.mp hrest
  obtain ⟨inputs, queue, vChecks, hspend, hv⟩ := connectTx_spends hcb htx
  obtain ⟨v', hv'⟩ := connectLoop_vChecks hafter
  refine ⟨s, inputs, queue, vChecks, rounds_of_connectLoop hbefore fun t ht => ?_, hspend, ?_⟩
  · refine CTransaction.nodup_of_checkTransaction (hb.checked t ?_)
    rw [hvtx]
    exact mem_append_left _ ht
  · rw [hv', hv, all_append, all_append, Bool.and_eq_true, Bool.and_eq_true] at hall
    exact hall.1.2

end ConnectBlock

/-! ## Scripts -/

/-- The previous transaction of an input, as it was fetched. -/
def MapPrevTx.txPrev (inputs : MapPrevTx) (hash : Uint256) : Option CTransaction :=
  (inputs hash).map (·.2)

/-- The second loop of `ConnectInputs` changes the index entries only. -/
theorem spendInput_txPrev {s s' : SpendState} {input : CTxIn × Nat}
    (h : spendInput env args tx s input = .ok s') : s'.inputs.txPrev = s.inputs.txPrev := by
  obtain ⟨txindex, txPrev, _, hfound, -, -, -, rfl⟩ := spendInput_eq_ok.mp h
  funext hash
  simp only [MapPrevTx.txPrev, MapPrevTx.insert]
  split
  · next he => rw [he, hfound]; rfl
  · rfl

/-- Each input has added its check to the queue, and all of them pass. -/
theorem spendInputs_scripts (hs : args.fScriptChecks) :
    ∀ {l : List (CTxIn × Nat)} {s s' : SpendState}, foldAll (spendInput env args tx) s l = .ok s' →
      s'.vChecks.all (·.run env.crypto) →
      s.vChecks.all (·.run env.crypto) ∧
      ∀ input ∈ l, ∃ txPrev, s.inputs.txPrev input.1.prevout.hash = some txPrev ∧
        (CScriptCheck.new txPrev tx input.1 input.2 args.flags).run env.crypto
  | [], _, _, h, hall => by
    cases h
    exact ⟨hall, by simp⟩
  | (txin, nIn) :: l, s, s', h, hall => by
    obtain ⟨s₁, h₁, hl⟩ := foldAll_cons_eq_ok.mp h
    obtain ⟨hall₁, hrest⟩ := spendInputs_scripts hs hl hall
    rw [spendInput_txPrev h₁] at hrest
    obtain ⟨txindex, txPrev, _, hfound, -, -, hrun, rfl⟩ := spendInput_eq_ok.mp h₁
    have hprev : s.inputs.txPrev txin.prevout.hash = some txPrev := by
      simp [MapPrevTx.txPrev, hfound]
    simp only [hs, Bool.true_and] at hall₁
    cases hpv : args.pvChecks with
    | false =>
      rw [hpv] at hall₁
      exact ⟨hall₁, forall_mem_cons.mpr ⟨⟨txPrev, hprev, hrun hs hpv⟩, hrest⟩⟩
    | true =>
      rw [hpv, if_pos rfl, all_append, Bool.and_eq_true, all_cons, Bool.and_eq_true] at hall₁
      exact ⟨hall₁.1, forall_mem_cons.mpr ⟨⟨txPrev, hprev, hall₁.2.1⟩, hrest⟩⟩

section SpendingTx

variable {pindex : PIndex} {pos : CDiskTxPos} {vChecks : List CScriptCheck}

theorem SpendingTx.inputOk (h : SpendingTx env db pindex fScriptChecks pos s tx inputs queue vChecks)
    (hcb : tx.isCoinBase = false) : ∀ txin ∈ tx.vin, ∃ txindex txPrev txout,
      InputOk env (blockArgs env pindex fScriptChecks pos tx) tx inputs txin txindex txPrev txout := by
  obtain ⟨_, hcheck, -⟩ := (connectInputs_iff hcb).mp h.connected
  exact checkInputs_all hcheck

theorem SpendingTx.script (h : SpendingTx env db pindex true pos s tx inputs queue vChecks)
    (hcb : tx.isCoinBase = false) (hall : vChecks.all (·.run env.crypto)) :
    ∀ input ∈ tx.vin.zipIdx, ∃ txPrev, inputs.txPrev input.1.prevout.hash = some txPrev ∧
      (CScriptCheck.new txPrev tx input.1 input.2 (connectBlockFlags tx.nTime)).run env.crypto =
        true := by
  obtain ⟨_, -, s', hspend, -, -, rfl⟩ := (connectInputs_iff hcb).mp h.connected
  exact (spendInputs_scripts rfl hspend hall).2

end SpendingTx

end NovaCoin
