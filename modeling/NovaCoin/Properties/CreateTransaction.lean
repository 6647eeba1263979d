import Mathlib.Algebra.Order.BigOperators.Group.List
import NovaCoin.CreateTransaction
import NovaCoin.Infra.Runs
import NovaCoin.Properties.CoinSelection
import NovaCoin.Spec.Inputs

/-!
# What a payment pays

A transaction that `CreateTransaction` makes spends what it pays and the fee it says, and the fee is
enough for the memory pool. The loop ends: each round asks for more than the one before, and there are
not many fees that can be asked for.

The coins are selected for a target to which `SelectCoinsMinConf` adds a cent. If that overflows, it
takes a coin that is too small (`payment_overflows`).
-/

namespace NovaCoin

open List

/-! ## Signing -/

/-- Signing changes nothing but the scripts of the inputs. -/
structure SignedFrom (tx tx' : CTransaction) : Prop where
  vout : tx'.vout = tx.vout
  prevouts : tx'.vin.map (·.prevout) = tx.vin.map (·.prevout)
  nTime : tx'.nTime = tx.nTime

theorem map_prevout_modify (vin : List CTxIn) (nIn : Nat) (scriptSig : CScript) :
    (vin.modify nIn fun txin => { txin with scriptSig }).map (·.prevout) = vin.map (·.prevout) := by
  refine ext_getElem? fun i => ?_
  rw [getElem?_map, getElem?_map, getElem?_modify]
  cases vin[i]? with
  | none => rfl
  | some txin =>
    by_cases hi : nIn = i
    · simp [hi]
    · simp [hi]

theorem signInputs_signedFrom {signSignature : CTransaction → CTransaction → Nat → Option CScript}
    {vTxFrom : List CTransaction} {tx tx' : CTransaction}
    (h : signInputs signSignature vTxFrom tx = some tx') : SignedFrom tx tx' := by
  refine Runs.run_invariant (I := SignedFrom tx) (fun t p t' ht hstep => ?_) ⟨rfl, rfl, rfl⟩
    vTxFrom.zipIdx h
  obtain ⟨scriptSig, -, heq⟩ := Option.bind_eq_some_iff.mp hstep
  obtain rfl := Option.some.inj heq
  exact ⟨ht.vout, (map_prevout_modify _ _ _).trans ht.prevouts, ht.nTime⟩

theorem CTransaction.isCoinStake_eq_false {tx : CTransaction}
    (h : ∀ txout ∈ tx.vout, txout.isEmpty = false) : tx.isCoinStake = false := by
  unfold isCoinStake
  split
  · next txin vin out₀ out₁ vout hvin hvout =>
    rw [h out₀ (by rw [hvout]; exact mem_cons_self), Bool.and_false]
  · rfl

theorem CTxOut.isEmpty_of_pos {txout : CTxOut} (h : 0 < txout.nValue) : txout.isEmpty = false := by
  unfold isEmpty
  rw [Bool.and_eq_false_iff]
  refine .inl (beq_false_of_ne fun heq => ?_)
  rw [heq] at h
  exact absurd h (by decide)

/-- The larger of two amounts is one of them. -/
theorem max_amount_cases (a b : Int64) : max a b = a ∨ max a b = b := by
  by_cases h : a ≤ b
  · exact .inr (if_pos h)
  · exact .inl (if_neg h)

theorem le_max_amount_right (a b : Int64) : b ≤ max a b := by
  by_cases h : a ≤ b
  · rw [show max a b = b from if_pos h]
    exact Int64.le_refl b
  · rw [show max a b = a from if_neg h]
    exact Int64.le_of_lt (Int64.not_le.mp h)

namespace Payment

variable {p : Payment}

/-! ## The amounts -/

def total (p : Payment) : Int := (p.vecSend.map fun s => s.2.toInt).sum

theorem sumValue_eq : ∀ (vecSend : List (CScript × Int64)) {nValue : Int64}, 0 ≤ nValue.toInt →
    (∀ s ∈ vecSend, 0 < s.2) → nValue.toInt + (vecSend.map fun s => s.2.toInt).sum < 2 ^ 63 →
    ∃ n, sumValue vecSend nValue = some n ∧
      n.toInt = nValue.toInt + (vecSend.map fun s => s.2.toInt).sum
  | [], nValue, _, _, _ => ⟨nValue, rfl, by simp⟩
  | s :: vecSend, nValue, hn, hpos, hlt => by
    rw [map_cons, sum_cons] at hlt
    have hs := Int64.lt_iff_toInt_lt.mp (hpos s mem_cons_self)
    rw [Int64.toInt_zero] at hs
    have hrest : 0 ≤ (vecSend.map fun s => s.2.toInt).sum := by
      refine sum_nonneg fun v hv => ?_
      obtain ⟨t, ht, rfl⟩ := mem_map.mp hv
      have hlt := Int64.lt_iff_toInt_lt.mp (hpos t (mem_cons_of_mem s ht))
      rw [Int64.toInt_zero] at hlt
      omega
    have hadd := toInt_add_eq (a := nValue) (b := s.2) (by omega) (by omega)
    have hnext : 0 ≤ (nValue + s.2).toInt := by omega
    obtain ⟨n, hsum, heq⟩ := sumValue_eq vecSend hnext
      (fun t ht => hpos t (mem_cons_of_mem s ht)) (by omega)
    refine ⟨n, ?_, by rw [heq, map_cons, sum_cons]; omega⟩
    have hnot : ¬ nValue < 0 := by
      rw [Int64.lt_iff_toInt_lt, Int64.toInt_zero]
      omega
    rw [sumValue, if_neg hnot]
    exact hsum

variable {nValue nChange nFeeRet : Int64} {k : Nat} {vout : List CTxOut}
  {r : CTransaction × List CoinRef}

theorem getValue_eq (hpos : ∀ s ∈ p.vecSend, 0 < s.2) (htotal : p.total < 2 ^ 63)
    (h : p.getValue = some nValue) : nValue.toInt = p.total ∧ 0 ≤ nValue := by
  have hzero : 0 ≤ (0 : Int64).toInt := Int.le_refl 0
  obtain ⟨n, hsum, heq⟩ := sumValue_eq p.vecSend hzero hpos
    (by rw [Int64.toInt_zero, Int.zero_add]; exact htotal)
  unfold getValue at h
  rw [hsum, Option.bind_eq_bind, Option.bind_some] at h
  split at h
  · cases h
  · next hcond =>
    obtain rfl := Option.some.inj h
    simp only [Bool.or_eq_true, decide_eq_true_eq, not_or] at hcond
    rw [Int64.toInt_zero, Int.zero_add] at heq
    exact ⟨heq, Int64.not_lt.mp hcond.2⟩

def amountOut (vout : List CTxOut) : Int := (vout.map (·.nValue.toInt)).sum

theorem amountOut_payees (p : Payment) : amountOut p.payees = p.total := by
  unfold amountOut payees total
  rw [map_map]
  rfl

/-- The outputs are those to the payees, and the change. -/
theorem outputs_cases (h : p.outputs k nChange = some vout) :
    (¬ 0 < nChange ∧ vout = p.payees) ∨ 0 < nChange ∧ ∃ script, vout =
        p.payees.insertIdx ((p.round k).getRandInt p.payees.length) ⟨nChange, script⟩ := by
  unfold outputs at h
  split at h
  · next hpos =>
    obtain ⟨script, -, heq⟩ := Option.bind_eq_some_iff.mp h
    exact .inr ⟨hpos, script, (Option.some.inj heq).symm⟩
  · next hnot => exact .inl ⟨hnot, (Option.some.inj h).symm⟩

theorem getRandInt_lt (p : Payment) (k : Nat) (hne : p.vecSend ≠ []) :
    (p.round k).getRandInt p.payees.length < p.payees.length := by
  refine (p.round k).getRandInt_lt _ ?_
  rw [payees, length_map]
  exact length_pos_iff.mpr hne

theorem amountOut_outputs (hne : p.vecSend ≠ []) (hnonneg : 0 ≤ nChange.toInt)
    (h : p.outputs k nChange = some vout) : amountOut vout = p.total + nChange.toInt := by
  rcases outputs_cases h with ⟨hnot, rfl⟩ | ⟨-, script, rfl⟩
  · have hzero : nChange.toInt ≤ 0 := Int64.le_iff_toInt_le.mp (Int64.not_lt.mp hnot)
    rw [amountOut_payees]
    omega
  · have hperm := perm_insertIdx (⟨nChange, script⟩ : CTxOut) p.payees
      (Nat.le_of_lt (p.getRandInt_lt k hne))
    rw [amountOut, (hperm.map (·.nValue.toInt)).sum_eq, map_cons, sum_cons, ← amountOut,
      amountOut_payees]
    exact Int.add_comm _ _

theorem outputs_pos (hne : p.vecSend ≠ []) (hpos : ∀ s ∈ p.vecSend, 0 < s.2)
    (h : p.outputs k nChange = some vout) :
    (∀ txout ∈ vout, 0 < txout.nValue) ∧ vout.length ≤ p.vecSend.length + 1 := by
  have hpayees : ∀ txout ∈ p.payees, 0 < txout.nValue := by
    intro txout hmem
    obtain ⟨s, hs, rfl⟩ := mem_map.mp hmem
    exact hpos s hs
  have hlen : p.payees.length = p.vecSend.length := length_map _
  rcases outputs_cases h with ⟨-, rfl⟩ | ⟨hchange, script, rfl⟩
  · exact ⟨hpayees, by omega⟩
  · have hperm := perm_insertIdx (⟨nChange, script⟩ : CTxOut) p.payees
      (Nat.le_of_lt (p.getRandInt_lt k hne))
    refine ⟨fun txout hmem => ?_, by rw [hperm.length_eq, length_cons, hlen]⟩
    rcases mem_cons.mp (hperm.mem_iff.mp hmem) with rfl | hmem
    · exact hchange
    · exact hpayees txout hmem

/-! ## A round -/

structure Made (p : Payment) (nValue : Int64) (k : Nat) (nFeeRet : Int64) (tx : CTransaction)
    (setCoins : List CoinRef) : Prop where
  selected : ∃ coins nValueIn,
    p.view.selectCoins (p.round k).random (nValue + nFeeRet) p.txNew.nTime p.coinControl =
      some (coins, nValueIn) ∧
    setCoins.Perm coins ∧ p.outputs k (nValueIn - nValue - nFeeRet) = some tx.vout
  prevouts : tx.vin.map (·.prevout) =
    setCoins.map fun coin => (coin.toTxIn p.view.env.crypto).prevout
  size : tx.getSerializeSize < 100000

theorem made_of_makeTx {tx : CTransaction} {setCoins : List CoinRef}
    (h : p.makeTx nValue k nFeeRet = some (tx, setCoins)) :
    Made p nValue k nFeeRet tx setCoins := by
  obtain ⟨⟨coins, nValueIn⟩, hselect, h⟩ := Option.bind_eq_some_iff.mp h
  obtain ⟨vout, hvout, h⟩ := Option.bind_eq_some_iff.mp h
  obtain ⟨signed, hsigned, h⟩ := Option.bind_eq_some_iff.mp h
  split at h
  · cases h
  · next hsize =>
    cases h
    have hfrom := signInputs_signedFrom hsigned
    refine ⟨⟨coins, nValueIn, hselect, (p.round k).order_perm coins, ?_⟩, ?_, ?_⟩
    · rw [hfrom.vout]
      exact hvout
    · rw [hfrom.prevouts, map_map]
      rfl
    · have hgen : MAX_BLOCK_SIZE_GEN / 5 = 100000 := rfl
      omega

section Round

variable (hne : p.vecSend ≠ []) (hpos : ∀ s ∈ p.vecSend, 0 < s.2) {tx : CTransaction}
  {setCoins : List CoinRef} (h : Made p nValue k nFeeRet tx setCoins)

include hne hpos h

theorem Made.isCoinStake : tx.isCoinStake = false := by
  obtain ⟨coins, nValueIn, -, -, hvout⟩ := h.selected
  exact CTransaction.isCoinStake_eq_false fun txout hmem =>
    CTxOut.isEmpty_of_pos ((outputs_pos hne hpos hvout).1 txout hmem)

/-- The fees that can be asked for. -/
def fees (p : Payment) : Finset Int :=
  (Finset.range 100).image (fun j => (p.nTransactionFee * (1 + Int64.ofNat j)).toInt) ∪
    (Finset.range (p.vecSend.length + 102)).image fun n : Nat => 1000 * (n : Int)

theorem Made.feeNeeded_mem : (p.feeNeeded k tx).toInt ∈ p.fees := by
  obtain ⟨coins, nValueIn, -, -, hvout⟩ := h.selected
  have hlen := (outputs_pos hne hpos hvout).2
  have hsize := h.size
  unfold feeNeeded fees
  rw [Finset.mem_union]
  rcases max_amount_cases (p.nTransactionFee * (1 + Int64.ofNat (tx.getSerializeSize / 1000)))
    (tx.getMinFee 1 (p.round k).fAllowFree .GMF_SEND tx.getSerializeSize) with hmax | hmax
  · rw [hmax]
    exact .inl (Finset.mem_image.mpr ⟨_, Finset.mem_range.mpr (by omega), rfl⟩)
  · obtain ⟨n, hn, heq⟩ := tx.sendFee_eq (p.round k).fAllowFree (h.isCoinStake hne hpos) hsize
      tx.length_vout_le
    rw [hmax, heq]
    exact .inr (Finset.mem_image.mpr ⟨n, Finset.mem_range.mpr (by omega), rfl⟩)

theorem Made.sendFee_le :
    tx.getMinFee 1000 true .GMF_RELAY tx.getSerializeSize ≤ p.feeNeeded k tx ∧
      0 ≤ (p.feeNeeded k tx).toInt := by
  have hstake := h.isCoinStake hne hpos
  have hmax : tx.getMinFee 1 (p.round k).fAllowFree .GMF_SEND tx.getSerializeSize ≤
      p.feeNeeded k tx := le_max_amount_right _ _
  obtain ⟨n, -, hn⟩ := tx.sendFee_eq (p.round k).fAllowFree hstake h.size tx.length_vout_le
  have hle := Int64.le_iff_toInt_le.mp hmax
  refine ⟨Int64.le_trans ?_ hmax, by omega⟩
  exact tx.relayFee_le_sendFee (p.round k).fAllowFree hstake h.size tx.length_vout_le

end Round

/-! ## The loop -/

inductive Tries (p : Payment) (nValue : Int64) : Nat → Int64 → Prop
  | first : p.getValue = some nValue → Tries p nValue 0 p.nTransactionFee
  | again {k : Nat} {nFeeRet : Int64} {tx : CTransaction} {setCoins : List CoinRef} :
      Tries p nValue k nFeeRet → p.makeTx nValue k nFeeRet = some (tx, setCoins) →
      nFeeRet < p.feeNeeded k tx → Tries p nValue (k + 1) (p.feeNeeded k tx)

/-- Each round takes one more of the fees that can be asked for. -/
theorem Tries.le_card (hne : p.vecSend ≠ []) (hpos : ∀ s ∈ p.vecSend, 0 < s.2)
    (h : Tries p nValue k nFeeRet) : k ≤ (p.fees.filter (· ≤ nFeeRet.toInt)).card := by
  induction h with
  | first => exact Nat.zero_le _
  | @again k nFeeRet tx setCoins _ hmake hlt ih =>
    have hmem := (made_of_makeTx hmake).feeNeeded_mem hne hpos
    have hlt := Int64.lt_iff_toInt_lt.mp hlt
    refine Nat.succ_le_of_lt (Nat.lt_of_le_of_lt ih (Finset.card_lt_card ?_))
    refine ⟨fun v hv => ?_, fun hsub => ?_⟩
    · rw [Finset.mem_filter] at hv ⊢
      exact ⟨hv.1, by omega⟩
    · have hin := hsub (Finset.mem_filter.mpr ⟨hmem, Int.le_refl _⟩)
      have hle := (Finset.mem_filter.mp hin).2
      omega

theorem Tries.mem_fees (hne : p.vecSend ≠ []) (hpos : ∀ s ∈ p.vecSend, 0 < s.2)
    (h : Tries p nValue k nFeeRet) : nFeeRet = p.nTransactionFee ∨ nFeeRet.toInt ∈ p.fees := by
  cases h with
  | first => exact .inl rfl
  | again _ hmake => exact .inr ((made_of_makeTx hmake).feeNeeded_mem hne hpos)

theorem card_fees_le (p : Payment) : p.fees.card ≤ p.vecSend.length + 202 := by
  have hpay := Finset.card_image_le (s := Finset.range 100)
    (f := fun j => (p.nTransactionFee * (1 + Int64.ofNat j)).toInt)
  have hmin := Finset.card_image_le (s := Finset.range (p.vecSend.length + 102))
    (f := fun n : Nat => 1000 * (n : Int))
  rw [Finset.card_range] at hpay hmin
  exact Nat.le_trans (Finset.card_union_le _ _) (by omega)

theorem payLoop_again (hmake : p.makeTx nValue k nFeeRet = some r)
    (hlt : nFeeRet < p.feeNeeded k r.1) :
    p.payLoop nValue k nFeeRet = p.payLoop nValue (k + 1) (p.feeNeeded k r.1) := by
  rw [payLoop, hmake]
  exact dif_pos hlt

theorem payLoop_done (hmake : p.makeTx nValue k nFeeRet = some r)
    (hnot : ¬ nFeeRet < p.feeNeeded k r.1) :
    p.payLoop nValue k nFeeRet = some ⟨r.1, r.2, nFeeRet⟩ := by
  rw [payLoop, hmake]
  exact dif_neg hnot

theorem payLoop_cases {r : Paid} (htries : Tries p nValue k nFeeRet)
    (h : p.payLoop nValue k nFeeRet = some r) :
    ∃ k', Tries p nValue k' r.nFeeRet ∧ p.makeTx nValue k' r.nFeeRet = some (r.tx, r.setCoins) ∧
      p.feeNeeded k' r.tx ≤ r.nFeeRet := by
  fun_induction payLoop p nValue k nFeeRet with
  | case1 k nFeeRet hmake => cases h
  | case2 k nFeeRet tx setCoins hmake hlt ih => exact ih (htries.again hmake hlt) h
  | case3 k nFeeRet tx setCoins hmake hnot =>
    obtain rfl := Option.some.inj h
    exact ⟨k, htries, hmake, Int64.not_lt.mp hnot⟩

/-! ## The result -/

/-- A payment as it should be. -/
structure PaidOk (p : Payment) (r : Paid) : Prop where
  /-- the inputs are distinct coins that may be spent -/
  nodup : r.setCoins.Nodup
  spendable : ∀ coin ∈ r.setCoins, coin ∈ p.view.spendableCoins p.coinControl
  prevouts : r.tx.vin.map (·.prevout) =
    r.setCoins.map fun coin => (coin.toTxIn p.view.env.crypto).prevout
  balance : amountOf r.setCoins - amountOut r.tx.vout = r.nFeeRet.toInt
  payees : r.tx.vout = p.payees ∨
    ∃ i change, i < p.payees.length ∧ r.tx.vout = p.payees.insertIdx i change
  relay : r.tx.getMinFee 1000 true .GMF_RELAY r.tx.getSerializeSize ≤ r.nFeeRet

/-- The loop ended with a fee that covers what its transaction needs. -/
theorem Made.paidOk (hkeyed : p.view.Keyed) (hcoins : Bounded (p.view.spendableCoins p.coinControl))
    (hne : p.vecSend ≠ []) (hpos : ∀ s ∈ p.vecSend, 0 < s.2) {r : Paid}
    (hvalue : nValue.toInt = p.total) (hnonneg : 0 ≤ nValue)
    (hlt : p.total + r.nFeeRet.toInt + CENT.toInt < 2 ^ 63)
    (h : Made p nValue k r.nFeeRet r.tx r.setCoins) (hfee : p.feeNeeded k r.tx ≤ r.nFeeRet) :
    PaidOk p r := by
  obtain ⟨hrelay, hneeded⟩ := h.sendFee_le hne hpos
  obtain ⟨coins, nValueIn, hselect, hperm, hvout⟩ := h.selected
  have hcent : CENT.toInt = 10000 := by decide
  have hfeeInt := Int64.le_iff_toInt_le.mp hfee
  have hnonneg := Int64.le_iff_toInt_le.mp hnonneg
  rw [Int64.toInt_zero] at hnonneg
  have htarget : (nValue + r.nFeeRet).toInt = nValue.toInt + r.nFeeRet.toInt :=
    toInt_add_eq (by omega) (by omega)
  have hok := WalletView.selectCoins_ok hkeyed hcoins (by rw [htarget]; omega) hselect
  have hreached := Int64.le_iff_toInt_le.mp hok.reached
  have htotal := hok.total
  dsimp only at hreached htotal
  have hless := Int64.toInt_lt nValueIn
  -- nothing overflows in the change
  have hchange : (nValueIn - nValue - r.nFeeRet).toInt =
      nValueIn.toInt - nValue.toInt - r.nFeeRet.toInt := by
    have hsub : (nValueIn - nValue).toInt = nValueIn.toInt - nValue.toInt := by
      rw [Int64.toInt_sub]
      exact Int.bmod_eq_of_le (by omega) (by omega)
    rw [Int64.toInt_sub, hsub]
    exact Int.bmod_eq_of_le (by omega) (by omega)
  have hout := amountOut_outputs hne (by rw [hchange]; omega) hvout
  refine
    { nodup := hperm.nodup_iff.mpr hok.nodup
      spendable := fun coin hc => hok.subset coin (hperm.mem_iff.mp hc)
      prevouts := h.prevouts
      balance := ?_
      payees := ?_
      relay := Int64.le_trans hrelay hfee }
  · rw [amountOf_perm hperm, hout, hchange]
    omega
  · rcases outputs_cases hvout with ⟨-, heq⟩ | ⟨-, script, heq⟩
    · exact .inl heq
    · exact .inr ⟨_, _, p.getRandInt_lt k hne, heq⟩

/-- For a wallet whose coins do not overflow together, and amounts that leave room for the fees and a
cent. -/
theorem createTransaction_ok (p : Payment) (hkeyed : p.view.Keyed)
    (hcoins : Bounded (p.view.spendableCoins p.coinControl)) (hne : p.vecSend ≠ [])
    (hpos : ∀ s ∈ p.vecSend, 0 < s.2) (htotal : p.total < 2 ^ 63)
    (hfees : ∀ nValue k nFeeRet, Tries p nValue k nFeeRet →
      p.total + nFeeRet.toInt + CENT.toInt < 2 ^ 63) :
    (∀ nValue k nFeeRet, Tries p nValue k nFeeRet → k ≤ p.vecSend.length + 202) ∧
      ∀ r, p.createTransaction = some r → PaidOk p r := by
  refine ⟨fun nValue k nFeeRet htries => ?_, fun r h => ?_⟩
  · have hcard := htries.le_card hne hpos
    have hfilter := Finset.card_filter_le p.fees (· ≤ nFeeRet.toInt)
    have hall := p.card_fees_le
    omega
  · obtain ⟨nValue, hvalue, hloop⟩ := Option.bind_eq_some_iff.mp h
    obtain ⟨k, htries, hmake, hfee⟩ := payLoop_cases (.first hvalue) hloop
    obtain ⟨heq, hnonneg⟩ := getValue_eq hpos htotal hvalue
    exact (made_of_makeTx hmake).paidOk hkeyed hcoins hne hpos heq hnonneg
      (hfees nValue k r.nFeeRet htries) hfee

/-! ## Two payments -/

def sampleEnv : WalletEnv where
  crypto := Crypto.sample
  fTestNet := false
  isMineScript := fun script => if script = [1] then .MINE_SPENDABLE else .MINE_NO
  nMinimumInputValue := 1

def spentTx (nCoin : Int64) : CTransaction := ⟨1, 0, [⟨⟨7, 0⟩, [], 0⟩], [⟨nCoin, [1]⟩], 0⟩

def fundingTx (nCoin : Int64) : CTransaction :=
  ⟨1, 0, [⟨⟨Crypto.sample.txHash (spentTx nCoin), 0⟩, [], 0⟩], [⟨nCoin, [1]⟩], 0⟩

def sampleWallet (nCoin : Int64) : MapWallet :=
  ((∅ : MapWallet).insert (Crypto.sample.txHash (spentTx nCoin))
    ((CWalletTx.new (spentTx nCoin)).markSpent 0)).insert
      (Crypto.sample.txHash (fundingTx nCoin)) (.new (fundingTx nCoin))

def sampleView (nCoin : Int64) : WalletView where
  env := sampleEnv
  mapWallet := sampleWallet nCoin
  m := ⟨fun _ => none, fun _ => none, []⟩
  nBestHeight := 10
  nAdjustedTime := 100
  fConfChange := true
  inMempool := fun _ => true
  isFromMe := fun _ => true

def sampleRound : PayRound where
  random := fun _ => sampleRandom
  order := id
  order_perm := fun _ => List.Perm.refl _
  reservedKey := some ⟨List.replicate 20 0, rfl⟩
  getRandInt := fun nMax => nMax - 1
  getRandInt_lt := fun _ h => Nat.sub_lt h Nat.one_pos
  signSignature := fun _ _ _ => some [0]
  fAllowFree := false

def samplePayment (nCoin nPay : Int64) : Payment where
  view := sampleView nCoin
  vecSend := [([2], nPay)]
  txNew := ⟨1, 50, [], [], 0⟩
  coinControl := none
  nTransactionFee := 1000
  round := fun _ => sampleRound

theorem sampleView_keyed (nCoin : Int64) : (sampleView nCoin).Keyed := by
  intro hash wtx h
  rw [show (sampleView nCoin).mapWallet = sampleWallet nCoin from rfl, sampleWallet,
    AssocMap.lookup_insert_ite] at h
  split at h
  · next heq =>
    obtain rfl := Option.some.inj h
    exact heq.symm
  · rw [AssocMap.lookup_insert_ite] at h
    split at h
    · next heq =>
      obtain rfl := Option.some.inj h
      exact heq.symm
    · cases h

/-- The coin of five units is less than the cent that overflowed. -/
theorem overflowing_makeTx : ∃ r, (samplePayment 5 9223372036854773808).makeTx 9223372036854773808 0
      1000 = some r ∧
    (samplePayment 5 9223372036854773808).feeNeeded 0 r.1 = 1000 ∧ amountOf r.2 = 5 ∧
      amountOut r.1.vout = 9223372036854773808 := by
  decide +kernel

theorem overflowing_tries (h : Tries (samplePayment 5 9223372036854773808) nValue k nFeeRet) :
    nValue = 9223372036854773808 ∧ k = 0 ∧ nFeeRet = 1000 := by
  induction h with
  | first hvalue =>
    have heq : (samplePayment 5 9223372036854773808).getValue = some 9223372036854773808 := by
      decide +kernel
    exact ⟨Option.some.inj (hvalue.symm.trans heq), rfl, rfl⟩
  | again _ hmake hlt ih =>
    obtain ⟨rfl, rfl, rfl⟩ := ih
    obtain ⟨r, hr, hfee, -⟩ := overflowing_makeTx
    obtain rfl := Option.some.inj (hr.symm.trans hmake)
    rw [hfee] at hlt
    exact absurd hlt (by decide)

/-- All amounts and fees are in range, and five units pay for `2 ^ 63 - 2000`. -/
theorem payment_overflows :
    let p := samplePayment 5 9223372036854773808
    p.view.Keyed ∧ Bounded (p.view.spendableCoins p.coinControl) ∧ p.vecSend ≠ [] ∧
    (∀ s ∈ p.vecSend, 0 < s.2) ∧ p.total < 2 ^ 63 ∧
    (∀ nValue k nFeeRet, Tries p nValue k nFeeRet → p.total + nFeeRet.toInt < 2 ^ 63) ∧
    ∃ r, p.createTransaction = some r ∧ amountOf r.setCoins = 5 ∧
      amountOut r.tx.vout = 9223372036854773808 ∧ r.nFeeRet = 1000 := by
  refine ⟨sampleView_keyed 5, ⟨by decide +kernel, by decide +kernel⟩, by decide, by decide,
    by decide +kernel, fun nValue k nFeeRet htries => ?_, ?_⟩
  · obtain ⟨-, -, rfl⟩ := overflowing_tries htries
    decide +kernel
  · obtain ⟨r, hmake, hfee, hin, hout⟩ := overflowing_makeTx
    have hvalue : (samplePayment 5 9223372036854773808).getValue = some 9223372036854773808 := by
      decide +kernel
    refine ⟨⟨r.1, r.2, 1000⟩, ?_, hin, hout, rfl⟩
    unfold createTransaction
    rw [hvalue, Option.bind_eq_bind, Option.bind_some]
    exact payLoop_done hmake (by rw [hfee]; decide)

/-- The payment is small, so that a second round is needed. -/
theorem createTransaction_two_rounds :
    ∃ r, (samplePayment 60000 5000).createTransaction = some r ∧
      PaidOk (samplePayment 60000 5000) r := by
  have hvalue : (samplePayment 60000 5000).getValue = some 5000 := by decide +kernel
  obtain ⟨r₀, hr₀, hfee₀⟩ : ∃ r, (samplePayment 60000 5000).makeTx 5000 0 1000 = some r ∧
      (samplePayment 60000 5000).feeNeeded 0 r.1 = 2000 := by
    decide +kernel
  obtain ⟨r₁, hr₁, hfee₁⟩ : ∃ r, (samplePayment 60000 5000).makeTx 5000 1 2000 = some r ∧
      (samplePayment 60000 5000).feeNeeded 1 r.1 = 2000 := by
    decide +kernel
  have hcreate : (samplePayment 60000 5000).createTransaction = some ⟨r₁.1, r₁.2, 2000⟩ := by
    unfold createTransaction
    rw [hvalue, Option.bind_eq_bind, Option.bind_some]
    refine (payLoop_again hr₀ (by rw [hfee₀]; decide)).trans ?_
    rw [hfee₀]
    exact payLoop_done hr₁ (by rw [hfee₁]; decide)
  have hne : (samplePayment 60000 5000).vecSend ≠ [] := by decide
  have hpos : ∀ s ∈ (samplePayment 60000 5000).vecSend, 0 < s.2 := by decide
  have htotal : (samplePayment 60000 5000).total = 5000 := by decide +kernel
  have hcent : CENT.toInt = 10000 := by decide
  -- no fee comes near the limit
  have hfees : ∀ v ∈ (samplePayment 60000 5000).fees, v ≤ 103000 := by decide +kernel
  have hcoins : Bounded ((sampleView 60000).spendableCoins none) :=
    ⟨by decide +kernel, by decide +kernel⟩
  refine ⟨_, hcreate, (createTransaction_ok (samplePayment 60000 5000) (sampleView_keyed 60000)
    hcoins hne hpos (by omega) fun nValue k nFeeRet htries => ?_).2 _ hcreate⟩
  rcases htries.mem_fees hne hpos with rfl | hmem
  · decide +kernel
  · have hle := hfees _ hmem
    omega

end Payment

end NovaCoin
