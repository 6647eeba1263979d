import NovaCoin.Spec.Block

/-!
# The same inputs on another index

When `FetchInputs` and `ConnectInputs` succeed on one index, what does another index have to offer
for them to succeed on it too? The answer is given input by input (`Fetchable`, `Passes`): the
same previous transaction, an unspent outpoint, mature coins and a script that passes. Amounts
are then the same as well.
-/

namespace NovaCoin

open Guard SpentIndex List

/-! ## FetchInputs -/

/-- What `FetchInputs` needs of an input. -/
structure Fetchable (env : Env) (idx : Index Uint256 CDiskTxPos) (txin : CTxIn) (txindex : CTxIndex)
    (txPrev : CTransaction) : Prop where
  entry : idx txin.prevout.hash = some txindex
  read : readPrev env txin.prevout.hash (some txindex.pos) = .ok txPrev
  vout : txin.prevout.n.toNat < txPrev.vout.length
  vSpent : txin.prevout.n.toNat < txindex.vSpent.length

variable {txin : CTxIn} {txindex : CTxIndex} {txPrev tx : CTransaction} {vin : List CTxIn}
  {txout : CTxOut} {input : CTxIn × Nat} {nValueIn : Int64} {env : Env} {db : TxDB}
  {inputs inputs' : MapPrevTx} {args : ConnectArgs}

section Fetch

variable {queue : QueuedChanges} {fBlock fMiner : Bool}

theorem checkOutPoint_eq_ok :
    checkOutPoint inputs txin = .ok () ↔ ∃ txindex txPrev,
      inputs txin.prevout.hash = some (txindex, txPrev) ∧
        txin.prevout.n.toNat < txPrev.vout.length ∧ txin.prevout.n.toNat < txindex.vSpent.length := by
  constructor
  · intro h
    obtain ⟨⟨txindex, txPrev⟩, hfound, h⟩ := bind_eq_ok.mp h
    rw [require_eq_ok, Bool.and_eq_true, decide_eq_true_eq, decide_eq_true_eq] at h
    exact ⟨txindex, txPrev, getOr_eq_ok.mp hfound, h⟩
  · rintro ⟨txindex, txPrev, hfound, hn⟩
    refine bind_eq_ok.mpr ⟨(txindex, txPrev), getOr_eq_ok.mpr hfound, ?_⟩
    simpa using hn

/-- What `FetchInputs` has found for every input. -/
theorem fetchInputs_fetchable (hb : (fBlock || fMiner)) (hcb : tx.isCoinBase = false)
    (h : fetchInputs env db queue fBlock fMiner tx = .ok inputs) :
    ∀ txin ∈ tx.vin, ∃ txindex txPrev, inputs txin.prevout.hash = some (txindex, txPrev) ∧
      Fetchable env (view db queue) txin txindex txPrev := by
  have hf := fetchInputs_eq_ok hb h
  rw [fetchInputs, if_neg (by simp [hcb])] at h
  obtain ⟨inputs₁, -, h⟩ := bind_eq_ok.mp h
  obtain ⟨_, hcheck, h⟩ := bind_eq_ok.mp h
  cases h
  intro txin htx
  obtain ⟨txindex, txPrev, hfound, hvout, hspent⟩ :=
    checkOutPoint_eq_ok.mp (forAll_eq_ok.mp hcheck txin htx)
  obtain ⟨hentry, hread⟩ := hf _ _ _ hfound
  exact ⟨txindex, txPrev, hfound, hentry, hread, hvout, hspent⟩

theorem exists_fetchInput (hb : (fBlock || fMiner)) (inputs : MapPrevTx)
    (h : Fetchable env (view db queue) txin txindex txPrev) :
    ∃ inputs', fetchInput env db queue fBlock fMiner inputs txin = .ok inputs' := by
  simp only [fetchInput, readTxIndex_eq_view hb]
  split
  · exact ⟨inputs, rfl⟩
  · rw [h.entry]
    exact ⟨_, bind_eq_ok.mpr ⟨txPrev, h.read, rfl⟩⟩

theorem exists_fetchInputs_loop (hb : (fBlock || fMiner)) (inputs : MapPrevTx)
    (h : ∀ txin ∈ vin, ∃ txindex txPrev, Fetchable env (view db queue) txin txindex txPrev) :
    ∃ inputs', foldAll (fetchInput env db queue fBlock fMiner) inputs vin = .ok inputs' := by
  refine Exists.imp (fun _ => And.left)
    (exists_foldAll (I := fun _ => True) trivial fun txin hin inputs _ => ?_)
  obtain ⟨_, _, h⟩ := h txin hin
  obtain ⟨inputs₁, hi⟩ := exists_fetchInput hb inputs h
  exact ⟨inputs₁, hi, trivial⟩

theorem exists_fetchInputs (hb : (fBlock || fMiner)) (hcb : tx.isCoinBase = false)
    (h : ∀ txin ∈ tx.vin, ∃ txindex txPrev, Fetchable env (view db queue) txin txindex txPrev) :
    ∃ inputs, fetchInputs env db queue fBlock fMiner tx = .ok inputs := by
  obtain ⟨inputs, hl⟩ := exists_fetchInputs_loop hb (fun _ => none) h
  obtain ⟨hf, hs, -⟩ := fetchInputs_loop hb hl fun _ _ _ hn => by cases hn
  refine ⟨inputs, ?_⟩
  rw [fetchInputs, if_neg (by simp [hcb])]
  refine bind_eq_ok.mpr ⟨inputs, hl, bind_eq_ok.mpr ⟨(), forAll_eq_ok.mpr fun txin htx => ?_, rfl⟩⟩
  obtain ⟨txindex, txPrev, hfetch⟩ := h txin htx
  obtain ⟨⟨e, t⟩, hfound⟩ := Option.isSome_iff_exists.mp (hs txin htx)
  -- the entry that was read is the one of the index
  obtain ⟨hentry, hread⟩ := hf _ _ _ hfound
  rw [hfetch.entry] at hentry
  cases hentry
  rw [hfetch.read] at hread
  cases hread
  exact checkOutPoint_eq_ok.mpr ⟨_, _, hfound, hfetch.vout, hfetch.vSpent⟩

end Fetch

/-! ## Amounts -/

section Amounts

variable {σ : Type}

theorem getOutputFor_of_found (hfound : inputs txin.prevout.hash = some (txindex, txPrev))
    (hvout : txPrev.vout[txin.prevout.n.toNat]? = some txout) : getOutputFor inputs txin = .ok txout :=
  bind_eq_ok.mpr ⟨(txindex, txPrev), getOr_eq_ok.mpr hfound, getOr_eq_ok.mpr hvout⟩

theorem foldAll_getOutputFor_congr {f : σ → CTxIn → CTxOut → Except Reject σ} {s' : σ} {s : σ}
    (h : ∀ txin ∈ vin, ∀ txout, getOutputFor inputs txin = .ok txout →
      getOutputFor inputs' txin = .ok txout)
    (hl : foldAll (fun s txin => do
      let txout ← getOutputFor inputs txin
      f s txin txout) s vin = .ok s') :
    foldAll (fun s txin => do
      let txout ← getOutputFor inputs' txin
      f s txin txout) s vin = .ok s' := by
  refine foldAll_mono (fun txin htx s s' hs => ?_) hl
  obtain ⟨txout, ho, hs⟩ := bind_eq_ok.mp hs
  exact bind_eq_ok.mpr ⟨txout, h txin htx txout ho, hs⟩

section

variable (h : ∀ txin ∈ tx.vin, ∀ txout, getOutputFor inputs txin = .ok txout →
    getOutputFor inputs' txin = .ok txout)
include h

theorem CTransaction.getValueIn_congr {v : Int64} (hv : tx.getValueIn inputs = .ok v) :
    tx.getValueIn inputs' = .ok v := by
  unfold getValueIn at hv ⊢
  split at hv
  · next hcb => rwa [if_pos hcb]
  · next hcb =>
    rw [if_neg hcb]
    exact foldAll_getOutputFor_congr h hv

theorem CTransaction.getP2SHSigOpCount_congr {n : Nat} (hn : tx.getP2SHSigOpCount inputs = .ok n) :
    tx.getP2SHSigOpCount inputs' = .ok n := by
  unfold getP2SHSigOpCount at hn ⊢
  split at hn
  · next hcb => rwa [if_pos hcb]
  · next hcb =>
    rw [if_neg hcb]
    exact foldAll_getOutputFor_congr h hn

end

theorem exists_foldAll_getOutputFor {f : σ → CTxIn → CTxOut → σ} (s : σ)
    (h : ∀ txin ∈ vin, ∃ txout, getOutputFor inputs txin = .ok txout) :
    ∃ s', foldAll (fun s txin => do
      let txout ← getOutputFor inputs txin
      pure (f s txin txout)) s vin = .ok s' := by
  refine Exists.imp (fun _ => And.left)
    (exists_foldAll (I := fun _ => True) trivial fun txin hin s _ => ?_)
  obtain ⟨txout, ho⟩ := h txin hin
  exact ⟨f s txin txout, bind_eq_ok.mpr ⟨txout, ho, rfl⟩, trivial⟩

theorem CTransaction.exists_getValueIn
    (h : ∀ txin ∈ tx.vin, ∃ txout, getOutputFor inputs txin = .ok txout) :
    ∃ v, tx.getValueIn inputs = .ok v := by
  unfold getValueIn
  split
  · exact ⟨0, rfl⟩
  · exact exists_foldAll_getOutputFor 0 h

theorem CTransaction.exists_getP2SHSigOpCount
    (h : ∀ txin ∈ tx.vin, ∃ txout, getOutputFor inputs txin = .ok txout) :
    ∃ n, tx.getP2SHSigOpCount inputs = .ok n := by
  unfold getP2SHSigOpCount
  split
  · exact ⟨0, rfl⟩
  · exact exists_foldAll_getOutputFor 0 h

theorem CTransaction.exists_getValueOut (h : tx.checkTransaction = .ok ()) :
    ∃ v, tx.getValueOut = .ok v := by
  simp only [checkTransaction, bind_eq_ok, require_eq_ok, exists_const] at h
  obtain ⟨-, -, -, v, hv, -⟩ := h
  obtain ⟨-, hexact⟩ := tx.addsUp_checkOutputs.accepts.mp ⟨v, hv⟩
  exact tx.addsUp_getValueOut.accepts.mpr ⟨fun _ _ => trivial, hexact⟩

end Amounts

/-! ## ConnectInputs -/

/-- What the second loop of `ConnectInputs` needs of an input and its number. -/
def Spendable (env : Env) (args : ConnectArgs) (tx : CTransaction) (inputs : MapPrevTx)
    (input : CTxIn × Nat) : Prop :=
  ∃ txindex txPrev p, inputs input.1.prevout.hash = some (txindex, txPrev) ∧
    txindex.vSpent[input.1.prevout.n.toNat]? = some p ∧ p.isNull = true ∧
    (args.fScriptChecks = true →
      (CScriptCheck.new txPrev tx input.1 input.2 args.flags).run env.crypto = true)

/-- Spending an outpoint changes nothing for another. -/
theorem spendable_insert (hfound : inputs txin.prevout.hash = some (txindex, txPrev))
    (pos : CDiskTxPos) (hne : input.1.prevout.slot ≠ txin.prevout.slot) :
    Spendable env args tx (inputs.insert txin.prevout.hash
      ({ txindex with vSpent := txindex.vSpent.set txin.prevout.n.toNat pos }, txPrev)) input ↔
    Spendable env args tx inputs input := by
  unfold Spendable MapPrevTx.insert
  by_cases he : input.1.prevout.hash = txin.prevout.hash
  · -- another output of the same transaction
    have hn : txin.prevout.n.toNat ≠ input.1.prevout.n.toNat := by
      intro hn
      exact hne (by simp [COutPoint.slot, he, hn])
    simp [he, hfound, getElem?_set_ne hn]
  · simp [he]

theorem spendable_of_spendInputs (hpv : args.pvChecks = false) :
    ∀ {l : List (CTxIn × Nat)} {s s' : SpendState}, (l.map (·.1.prevout.slot)).Nodup →
      foldAll (spendInput env args tx) s l = .ok s' →
      ∀ input ∈ l, Spendable env args tx s.inputs input
  | [], _, _, _, _ => by simp
  | (txin, nIn) :: l, s, s', hd, h => by
    rw [map_cons, nodup_cons] at hd
    obtain ⟨s₁, h₁, hl⟩ := foldAll_cons_eq_ok.mp h
    obtain ⟨e, t, p, hfound, hp, hnull, hscript, rfl⟩ := spendInput_eq_ok.mp h₁
    refine forall_mem_cons.mpr ⟨⟨e, t, p, hfound, hp, hnull, fun hf => hscript hf hpv⟩, ?_⟩
    intro input hin
    refine (spendable_insert hfound args.posThisTx ?_).mp (spendable_of_spendInputs hpv hd.2 hl input hin)
    exact fun he => hd.1 (mem_map.mpr ⟨input, hin, he⟩)

theorem exists_spendInput {s : SpendState} {nIn : Nat} {p : CDiskTxPos}
    (hfound : s.inputs txin.prevout.hash = some (txindex, txPrev))
    (hp : txindex.vSpent[txin.prevout.n.toNat]? = some p) (hnull : p.isNull)
    (hscript : args.fScriptChecks →
      (CScriptCheck.new txPrev tx txin nIn args.flags).run env.crypto)
    (hall : s.vChecks.all (·.run env.crypto)) :
    ∃ s', spendInput env args tx s (txin, nIn) = .ok s' ∧
      s'.inputs = s.inputs.insert txin.prevout.hash
        ({ txindex with vSpent := txindex.vSpent.set txin.prevout.n.toNat args.posThisTx }, txPrev) ∧
      s'.vChecks.all (·.run env.crypto) := by
  refine ⟨_, spendInput_eq_ok.mpr ⟨txindex, txPrev, p, hfound, hp, hnull, fun hf _ => hscript hf, rfl⟩,
    rfl, ?_⟩
  show all (if _ then _ else _) _
  split
  · next hf =>
    rw [Bool.and_eq_true] at hf
    simp [hall, hscript hf.1]
  · exact hall

theorem exists_spendInputs :
    ∀ {l : List (CTxIn × Nat)} {s : SpendState}, (l.map (·.1.prevout.slot)).Nodup →
      (∀ input ∈ l, Spendable env args tx s.inputs input) →
      s.vChecks.all (·.run env.crypto) →
      ∃ s', foldAll (spendInput env args tx) s l = .ok s' ∧ s'.vChecks.all (·.run env.crypto)
  | [], s, _, _, hall => ⟨s, rfl, hall⟩
  | (txin, nIn) :: l, s, hd, h, hall => by
    rw [map_cons, nodup_cons] at hd
    obtain ⟨⟨e, t, p, hfound, hp, hnull, hscript⟩, h⟩ := forall_mem_cons.mp h
    obtain ⟨s₁, hstep, hin₁, hall₁⟩ := exists_spendInput hfound hp hnull hscript hall
    have hrest : ∀ input ∈ l, Spendable env args tx s₁.inputs input := by
      intro input hin
      rw [hin₁]
      refine (spendable_insert hfound args.posThisTx ?_).mpr (h input hin)
      exact fun he => hd.1 (mem_map.mpr ⟨input, hin, he⟩)
    obtain ⟨s', hl, hall'⟩ := exists_spendInputs hd.2 hrest hall₁
    exact ⟨s', foldAll_cons_eq_ok.mpr ⟨s₁, hstep, hl⟩, hall'⟩

theorem nodup_slots (hd : (tx.vin.map (·.prevout)).Nodup) :
    (tx.vin.zipIdx.map (·.1.prevout.slot)).Nodup := by
  rw [map_fst_zipIdx]
  have := hd.map COutPoint.slot_injective
  rwa [map_map] at this

theorem connectInputs_spendable {queue queue' : QueuedChanges} {vChecks : List CScriptCheck}
    (hpv : args.pvChecks = false) (hcb : tx.isCoinBase = false)
    (hd : (tx.vin.map (·.prevout)).Nodup)
    (h : connectInputs env db inputs queue args tx = .ok (queue', vChecks)) :
    ∀ input ∈ tx.vin.zipIdx, Spendable env args tx inputs input := by
  obtain ⟨_, -, s, hspend, -⟩ := (connectInputs_iff hcb).mp h
  exact spendable_of_spendInputs hpv (nodup_slots hd) hspend

theorem exists_connectInputs (queue : QueuedChanges) (hcb : tx.isCoinBase = false)
    (hd : (tx.vin.map (·.prevout)).Nodup)
    (hsum : foldAll (checkInput env args tx inputs) 0 tx.vin = .ok nValueIn)
    (hspend : ∀ input ∈ tx.vin.zipIdx, Spendable env args tx inputs input)
    (hamount : checkAmounts env db args tx nValueIn = .ok ()) :
    ∃ queue' vChecks, connectInputs env db inputs queue args tx = .ok (queue', vChecks) ∧
      vChecks.all (·.run env.crypto) := by
  obtain ⟨s, hs, hall⟩ := exists_spendInputs (nodup_slots hd) (s := ⟨inputs, queue, []⟩) hspend rfl
  exact ⟨_, _, (connectInputs_iff hcb).mpr ⟨nValueIn, hsum, s, hs, hamount, rfl, rfl⟩, hall⟩

/-! ## Transfer -/

def isUnripe (env : Env) (pindexBlock : PIndex) (txPrev : CTransaction) (pos : CDiskTxPos) : Bool :=
  (txPrev.isCoinBase || txPrev.isCoinStake) && isImmature env.fTestNet pindexBlock pos

/-- What a block on `pindexBlock` with the index `idx` can spend, one on `pindexBlock'` with `idx'`
can, from the same transaction. -/
def Covers (env env' : Env) (pindexBlock pindexBlock' : PIndex) (idx idx' : Index Uint256 CDiskTxPos)
    (o : COutPoint) : Prop :=
  ∀ e p txPrev, idx o.hash = some e → e.vSpent[o.n.toNat]? = some p → p.isNull = true →
    readPrev env o.hash (some e.pos) = .ok txPrev → ∃ e' p', idx' o.hash = some e' ∧
      e'.vSpent[o.n.toNat]? = some p' ∧ p'.isNull = true ∧
      readPrev env' o.hash (some e'.pos) = .ok txPrev ∧
      (isUnripe env pindexBlock txPrev e.pos = false → isUnripe env' pindexBlock' txPrev e'.pos = false)

section Transfer

variable {env' : Env} {queue queue' : QueuedChanges} {args' : ConnectArgs}

/-- An input that passes on one index is found on the other and passes there. -/
theorem Covers.transfer {idx idx' : Index Uint256 CDiskTxPos} (hf : Fetched env idx inputs)
    (hok : InputOk env args tx inputs input.1 txindex txPrev txout)
    (hspend : Spendable env args tx inputs input)
    (hcov : Covers env env' args.pindexBlock args'.pindexBlock idx idx' input.1.prevout) :
    ∃ txindex', Fetchable env' idx' input.1 txindex' txPrev ∧
      (∃ p, txindex'.vSpent[input.1.prevout.n.toNat]? = some p ∧ p.isNull) ∧
      isUnripe env' args'.pindexBlock txPrev txindex'.pos = false := by
  obtain ⟨e, t, p, hfound, hp, hnull, -⟩ := hspend
  rw [hok.found] at hfound
  cases hfound
  obtain ⟨hentry, hread⟩ := hf _ _ _ hok.found
  obtain ⟨e', p', he', hp', hnull', hread', hripe⟩ := hcov txindex p txPrev hentry hp hnull hread
  refine ⟨e', ⟨he', hread', ?_, ?_⟩, ⟨p', hp', hnull'⟩, hripe hok.mature⟩
  · exact (List.getElem?_eq_some_iff.mp hok.vout).1
  · exact (List.getElem?_eq_some_iff.mp hp').1

theorem found_of_fetchable {fBlock fMiner : Bool} (hb : (fBlock || fMiner))
    (hcb : tx.isCoinBase = false) (h : fetchInputs env db queue fBlock fMiner tx = .ok inputs)
    (htx : txin ∈ tx.vin) (hfetch : Fetchable env (view db queue) txin txindex txPrev) :
    inputs txin.prevout.hash = some (txindex, txPrev) := by
  obtain ⟨e, t, hfound, hfetch'⟩ := fetchInputs_fetchable hb hcb h txin htx
  have he := hfetch'.entry
  rw [hfetch.entry, Option.some.injEq] at he
  subst he
  have ht := hfetch'.read
  rw [hfetch.read, Except.ok.injEq] at ht
  rwa [← ht] at hfound

/-- `FetchInputs` and `ConnectInputs` succeed with the outputs of `inputs`, and so do the script
checks left to others. -/
def ConnectsLike (env : Env) (db : TxDB) (queue : QueuedChanges) (args : ConnectArgs)
    (tx : CTransaction) (inputs : MapPrevTx) : Prop :=
  ∃ inputs', fetchInputs env db queue args.fBlock args.fMiner tx = .ok inputs' ∧
    (∀ txin ∈ tx.vin, ∀ txout, getOutputFor inputs txin = .ok txout →
      getOutputFor inputs' txin = .ok txout) ∧
    ∃ queue' vChecks, connectInputs env db inputs' queue args tx = .ok (queue', vChecks) ∧
      vChecks.all (·.run env.crypto) = true

/-- The first loop of `ConnectInputs` adds up the same values if it finds the same outputs. -/
theorem checkInputs_transfer
    (h : ∀ txin ∈ tx.vin, ∃ txindex txPrev txout txindex', InputOk env args tx inputs txin txindex
      txPrev txout ∧ InputOk env' args' tx inputs' txin txindex' txPrev txout)
    (hsum : foldAll (checkInput env args tx inputs) 0 tx.vin = .ok nValueIn) :
    foldAll (checkInput env' args' tx inputs') 0 tx.vin = .ok nValueIn := by
  refine foldAll_mono (fun txin htx s s' hs => ?_) hsum
  obtain ⟨_, _, _, _, hok, hok'⟩ := h txin htx
  obtain ⟨-, hr, rfl⟩ := checkInput_eq_ok.mp hs
  rw [hok.inputValue_eq] at hr ⊢
  refine checkInput_eq_ok.mpr ⟨⟨_, _, _, hok'⟩, ?_, ?_⟩
  · rw [hok'.inputValue_eq]
    exact hr
  · rw [hok'.inputValue_eq]

/-- `FetchInputs` and `ConnectInputs` succeed on an index that covers one they succeed on. -/
theorem connectInputs_transfer {r : QueuedChanges × List CScriptCheck}
    (hb : (args.fBlock || args.fMiner)) (hb' : (args'.fBlock || args'.fMiner))
    (hpv : args.pvChecks = false) (hcb : tx.isCoinBase = false)
    (hd : (tx.vin.map (·.prevout)).Nodup)
    (hfetch : fetchInputs env db queue args.fBlock args.fMiner tx = .ok inputs)
    (hconnect : connectInputs env db inputs queue args tx = .ok r)
    (hcov : ∀ txin ∈ tx.vin, Covers env env' args.pindexBlock args'.pindexBlock (view db queue)
      (view db queue') txin.prevout)
    (hscript : ∀ input ∈ tx.vin.zipIdx, ∀ txindex txPrev,
      inputs input.1.prevout.hash = some (txindex, txPrev) →
      (args.fScriptChecks →
        (CScriptCheck.new txPrev tx input.1 input.2 args.flags).run env.crypto) →
      args'.fScriptChecks →
        (CScriptCheck.new txPrev tx input.1 input.2 args'.flags).run env'.crypto)
    (hamount : ∀ nValueIn, checkAmounts env db args tx nValueIn = .ok () →
      checkAmounts env' db args' tx nValueIn = .ok ()) :
    ConnectsLike env' db queue' args' tx inputs := by
  have hf := fetchInputs_eq_ok hb hfetch
  have hspend := connectInputs_spendable hpv hcb hd hconnect
  obtain ⟨nValueIn, hsum, _, -, ham, -⟩ := (connectInputs_iff hcb).mp hconnect
  -- what each input finds on the other index
  have hall : ∀ input ∈ tx.vin.zipIdx, ∃ txindex txPrev txout txindex',
      InputOk env args tx inputs input.1 txindex txPrev txout ∧
      Fetchable env' (view db queue') input.1 txindex' txPrev ∧
      (∃ p, txindex'.vSpent[input.1.prevout.n.toNat]? = some p ∧ p.isNull) ∧
      isUnripe env' args'.pindexBlock txPrev txindex'.pos = false := by
    intro input hin
    have hmem : input.1 ∈ tx.vin := fst_mem_of_mem_zipIdx hin
    obtain ⟨e, t, o, hok⟩ := checkInputs_all hsum input.1 hmem
    obtain ⟨e', h'⟩ := (hcov input.1 hmem).transfer hf hok (hspend input hin)
    exact ⟨e, t, o, e', hok, h'⟩
  have hnum : ∀ txin ∈ tx.vin, ∃ nIn, (txin, nIn) ∈ tx.vin.zipIdx := by
    intro txin htx
    obtain ⟨n, hn⟩ := getElem?_of_mem htx
    exact ⟨n, mem_zipIdx_iff_getElem?.mpr hn⟩
  obtain ⟨inputs', hfetch'⟩ : ∃ inputs',
      fetchInputs env' db queue' args'.fBlock args'.fMiner tx = .ok inputs' := by
    refine exists_fetchInputs hb' hcb fun txin htx => ?_
    obtain ⟨nIn, hin⟩ := hnum txin htx
    obtain ⟨_, t, _, e', -, hfetchable, -⟩ := hall _ hin
    exact ⟨e', t, hfetchable⟩
  have hok' : ∀ input ∈ tx.vin.zipIdx, ∃ txindex txPrev txout txindex',
      InputOk env args tx inputs input.1 txindex txPrev txout ∧
      InputOk env' args' tx inputs' input.1 txindex' txPrev txout ∧
      ∃ p, txindex'.vSpent[input.1.prevout.n.toNat]? = some p ∧ p.isNull := by
    intro input hin
    obtain ⟨e, t, o, e', hok, hfetchable, hnull, hripe⟩ := hall input hin
    have hfound := found_of_fetchable hb' hcb hfetch' (fst_mem_of_mem_zipIdx hin) hfetchable
    exact ⟨e, t, o, e', hok,
      ⟨hfound, hok.vout, hfetchable.vSpent, hripe, hok.nTime, hok.range⟩, hnull⟩
  have hboth : ∀ txin ∈ tx.vin, ∃ txindex txPrev txout txindex',
      InputOk env args tx inputs txin txindex txPrev txout ∧
      InputOk env' args' tx inputs' txin txindex' txPrev txout := by
    intro txin htx
    obtain ⟨nIn, hin⟩ := hnum txin htx
    obtain ⟨e, t, o, e', hok, hok', -⟩ := hok' _ hin
    exact ⟨e, t, o, e', hok, hok'⟩
  refine ⟨inputs', hfetch', ?_, ?_⟩
  · intro txin htx txout hout
    obtain ⟨_, _, _, _, hok, hok'⟩ := hboth txin htx
    rw [getOutputFor_of_found hok.found hok.vout] at hout
    cases hout
    exact getOutputFor_of_found hok'.found hok'.vout
  · have hsum' := checkInputs_transfer hboth hsum
    refine exists_connectInputs queue' hcb hd hsum' (fun input hin => ?_) (hamount _ ham)
    obtain ⟨e, t, o, e', hok, hok', p, hp, hnull⟩ := hok' input hin
    refine ⟨e', t, p, hok'.found, hp, hnull, hscript input hin e t hok.found fun hfs => ?_⟩
    obtain ⟨_, _, _, hfound, -, -, hrun⟩ := hspend input hin
    rw [hok.found] at hfound
    cases hfound
    exact hrun hfs

end Transfer

end NovaCoin
