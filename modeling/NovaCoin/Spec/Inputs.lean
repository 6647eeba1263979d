import Mathlib.Algebra.Order.BigOperators.Group.List
import NovaCoin.Connect
import NovaCoin.Inputs

/-!
# What the input functions do to the index

The functions of `Inputs.lean` in terms of `Infra/SpentIndex.lean`. The index that a block sees
while it is being connected is `view`: queued changes first, then the database.
The first loop of `ConnectInputs` adds up values exactly, although it does so in 64 bits, and its
second loop marks unspent outpoints of the view, each one once.
-/

namespace NovaCoin

open Guard SpentIndex List

instance : NullPtr CDiskTxPos := ⟨CDiskTxPos.null, CDiskTxPos.isNull, rfl⟩

/-- The index in the database. -/
def index (db : TxDB) : Index Uint256 CDiskTxPos := fun hash => db.lookup hash

/-- The index with changes that are not written yet. -/
def view (db : TxDB) (queue : QueuedChanges) : Index Uint256 CDiskTxPos :=
  fun hash => (queue.lookup hash).or (db.lookup hash)

theorem index_injective : Function.Injective index := fun _ _ h => Finmap.ext_lookup (congrFun h)

@[simp] theorem view_empty (db : TxDB) : view db ∅ = index db := by
  funext hash
  simp [view, index]

theorem view_insert (db : TxDB) (queue : QueuedChanges) (hash : Uint256) (e : CTxIndex) :
    view db (queue.insert hash e) = fun h => if h = hash then some e else view db queue h := by
  funext h
  by_cases hh : h = hash
  · subst hh
    simp [view]
  · simp [view, hh, AList.lookup_insert_ne hh]

/-- A transaction at a position, as an item of the index. -/
def CTransaction.item (crypto : Crypto) (tx : CTransaction) (pos : CDiskTxPos) :
    Item Uint256 CDiskTxPos :=
  { key := crypto.txHash tx, nOutputs := tx.vout.length, spends := tx.spends.map COutPoint.slot, pos }

@[simp] theorem CTransaction.item_key (crypto : Crypto) (tx : CTransaction) (pos : CDiskTxPos) :
    (tx.item crypto pos).key = crypto.txHash tx := rfl

variable {tx txPrev : CTransaction} {v s' : Int64} {idx : Index Uint256 CDiskTxPos}
  {txindex : CTxIndex} {txin : CTxIn} {env : Env} {db : TxDB}

theorem CTransaction.spends_of_isCoinBase (h : tx.isCoinBase) : tx.spends = [] := by
  simp [spends, h]

theorem CTransaction.spends_of_not_isCoinBase (h : tx.isCoinBase = false) :
    tx.spends = tx.vin.map (·.prevout) := by
  simp [spends, h]

/-- The output an outpoint names, read where `FetchInputs` reads it. -/
def prevOut (env : Env) (idx : Index Uint256 CDiskTxPos) (o : COutPoint) : Option CTxOut :=
  (idx o.hash).bind fun txindex =>
    (readPrev env o.hash (some txindex.pos)).toOption.bind fun txPrev => txPrev.vout[o.n.toNat]?

def prevValue (env : Env) (idx : Index Uint256 CDiskTxPos) (o : COutPoint) : Int64 :=
  ((prevOut env idx o).map (·.nValue)).getD 0

/-! ## Amounts -/

theorem moneyRange_iff : moneyRange v ↔ 0 ≤ v.toInt := by
  have hmax : MAX_MONEY.toInt = 9223372036854775807 := by decide
  have hlt := v.toInt_lt
  simp only [moneyRange, Bool.and_eq_true, decide_eq_true_eq, Int64.le_iff_toInt_le, hmax,
    Int64.toInt_zero]
  omega

/-- The sign shows every overflow of a sum of two amounts. -/
theorem toInt_add_of_moneyRange {a : Int64} (ha : moneyRange a) (hv : moneyRange v)
    (h : moneyRange (a + v)) : (a + v).toInt = a.toInt + v.toInt := by
  rw [moneyRange_iff] at ha hv h
  have hla := a.toInt_lt
  have hlv := v.toInt_lt
  rw [Int64.toInt_add, Int.bmod_def] at h ⊢
  split at h <;> split <;> omega

/-- Amounts such that `n` with each prefix of them has an amount as its exact sum. -/
structure ExactSums (n : Int) (values : List Int64) : Prop where
  range : ∀ v ∈ values, 0 ≤ v.toInt ∧ v.toInt ≤ MAX_MONEY.toInt
  sums : ∀ pre, pre <+: values → n + (pre.map Int64.toInt).sum ≤ MAX_MONEY.toInt

theorem exactSums_cons {n : Int} {values : List Int64} (hn : n ≤ MAX_MONEY.toInt) :
    ExactSums n (v :: values) ↔
      (0 ≤ v.toInt ∧ v.toInt ≤ MAX_MONEY.toInt) ∧ ExactSums (n + v.toInt) values := by
  constructor
  · rintro ⟨hrange, hsums⟩
    rw [forall_mem_cons] at hrange
    refine ⟨hrange.1, hrange.2, fun pre hpre => ?_⟩
    have hsum := hsums (v :: pre) ((prefix_cons_inj v).mpr hpre)
    rwa [map_cons, sum_cons, ← Int.add_assoc] at hsum
  · rintro ⟨hv, hrange, hsums⟩
    refine ⟨forall_mem_cons.mpr ⟨hv, hrange⟩, fun pre hpre => ?_⟩
    rcases prefix_cons_iff.mp hpre with rfl | ⟨pre, rfl, htail⟩
    · simpa using hn
    · rw [map_cons, sum_cons, ← Int.add_assoc]
      exact hsums pre htail

/-- The range is checked after each addition, so no sum that passes has wrapped. -/
theorem foldAll_add_iff {α ε : Type} {f : Int64 → α → Except ε Int64} {v : α → Int64}
    {other : α → Prop} (step : ∀ s a s', f s a = .ok s' ↔
      other a ∧ moneyRange (v a) ∧ moneyRange (s + v a) ∧ s + v a = s') :
    ∀ {l : List α} {s : Int64}, moneyRange s → (foldAll f s l = .ok s' ↔ (∀ a ∈ l, other a) ∧
      ExactSums s.toInt (l.map v) ∧ s'.toInt = s.toInt + ((l.map v).map Int64.toInt).sum)
  | [], s, _ => by
    have hnil : ExactSums s.toInt [] := ⟨by simp, by simpa using Int.le_of_lt_add_one s.toInt_lt⟩
    simp [hnil, Int64.toInt_inj, eq_comm]
  | a :: l, s, hs => by
    have hmax : MAX_MONEY.toInt = 2 ^ 63 - 1 := by decide
    have hlt := s.toInt_lt
    have hltv := (v a).toInt_lt
    rw [foldAll_cons_eq_ok, forall_mem_cons, map_cons, exactSums_cons (by omega), map_cons, sum_cons]
    constructor
    · rintro ⟨s₁, h₁, h⟩
      obtain ⟨ho, hv, hr, rfl⟩ := (step s a s₁).mp h₁
      obtain ⟨hos, hexact, hsum⟩ := (foldAll_add_iff step hr).mp h
      rw [toInt_add_of_moneyRange hs hv hr] at hexact hsum
      exact ⟨⟨ho, hos⟩, ⟨⟨moneyRange_iff.mp hv, by omega⟩, hexact⟩, by omega⟩
    · rintro ⟨⟨ho, hos⟩, ⟨hv, hexact⟩, hsum⟩
      have hle : s.toInt + (v a).toInt ≤ MAX_MONEY.toInt := by
        simpa using hexact.sums [] nil_prefix
      have hs0 := moneyRange_iff.mp hs
      have hadd : (s + v a).toInt = s.toInt + (v a).toInt := by
        rw [Int64.toInt_add]
        exact Int.bmod_eq_of_le (by omega) (by omega)
      have hr : moneyRange (s + v a) := moneyRange_iff.mpr (by omega)
      rw [← hadd] at hexact
      exact ⟨s + v a, (step ..).mpr ⟨ho, moneyRange_iff.mpr hv.1, hr, rfl⟩,
        (foldAll_add_iff step hr).mpr ⟨hos, hexact, by omega⟩⟩

/-- Where all else is well, `loop` adds up `values` iff that can be done exactly. -/
structure AddsUp {ε : Type} (other : Prop) (values : List Int64) (loop : Except ε Int64) :
    Prop where
  accepts : (∃ total, loop = .ok total) ↔ other ∧ ExactSums 0 values
  exact : ∀ total, loop = .ok total →
    moneyRange total ∧ total.toInt = (values.map Int64.toInt).sum

theorem addsUp_foldAll {α ε : Type} {f : Int64 → α → Except ε Int64} {v : α → Int64}
    {other : α → Prop} {l : List α} (step : ∀ s a s', f s a = .ok s' ↔
      other a ∧ moneyRange (v a) ∧ moneyRange (s + v a) ∧ s + v a = s') :
    AddsUp (∀ a ∈ l, other a) (l.map v) (foldAll f 0 l) := by
  have hiff (total : Int64) : foldAll f 0 l = .ok total ↔ _ := foldAll_add_iff step (by decide)
  simp only [Int64.toInt_zero, Int.zero_add] at hiff
  have hnonneg (h : ExactSums 0 (l.map v)) : 0 ≤ ((l.map v).map Int64.toInt).sum :=
    sum_nonneg (forall_mem_map.mpr fun n hn => (h.range n hn).1)
  refine ⟨⟨fun ⟨total, h⟩ => ?_, fun ⟨ho, hexact⟩ => ?_⟩, fun total h => ?_⟩
  · obtain ⟨ho, hexact, -⟩ := (hiff total).mp h
    exact ⟨ho, hexact⟩
  · have hmax : MAX_MONEY.toInt = 2 ^ 63 - 1 := by decide
    have hsum := hexact.sums _ (prefix_refl _)
    have hnn := hnonneg hexact
    exact ⟨_, (hiff _).mpr ⟨ho, hexact, Int64.toInt_ofInt_of_le (by omega) (by omega)⟩⟩
  · obtain ⟨-, hexact, hsum⟩ := (hiff total).mp h
    exact ⟨moneyRange_iff.mpr (hsum ▸ hnonneg hexact), hsum⟩

namespace CTransaction

def exactValueOut (tx : CTransaction) : Int := (tx.vout.map fun txout => txout.nValue.toInt).sum

def exactValueIn (env : Env) (idx : Index Uint256 CDiskTxPos) (tx : CTransaction) : Int :=
  (tx.spends.map fun o => (prevValue env idx o).toInt).sum

/-- The outputs of `tx` that `CheckTransaction` takes whatever their value. -/
def OutputsUsable (tx : CTransaction) : Prop :=
  ∀ txout ∈ tx.vout, (!(txout.isEmpty && !tx.isCoinBase && !tx.isCoinStake)) = true

theorem addsUp_checkOutputs (tx : CTransaction) :
    AddsUp tx.OutputsUsable (tx.vout.map (·.nValue)) (foldAll tx.checkOutput 0 tx.vout) := by
  refine @addsUp_foldAll _ _ _ _ (fun txout => _ = true) _ fun s txout s' => ?_
  simp only [checkOutput, require_bind_eq_ok, moneyRange, Bool.and_eq_true, pure, Except.pure,
    Except.ok.injEq, and_assoc]

theorem addsUp_getValueOut (tx : CTransaction) :
    AddsUp (∀ txout ∈ tx.vout, True) (tx.vout.map (·.nValue)) tx.getValueOut :=
  addsUp_foldAll fun s txout s' => by
    simp only [require_bind_eq_ok, Bool.and_eq_true, pure, Except.pure, Except.ok.injEq, true_and,
      and_assoc]

theorem getValueOut_eq_ok (h : tx.getValueOut = .ok v) :
    v.toInt = tx.exactValueOut ∧ moneyRange v := by
  obtain ⟨hr, hsum⟩ := tx.addsUp_getValueOut.exact v h
  rw [map_map] at hsum
  exact ⟨hsum, hr⟩

end CTransaction

/-! ## FetchInputs -/

/-- What is in `inputs` was read from the index and from where the index points. -/
def Fetched (env : Env) (idx : Index Uint256 CDiskTxPos) (inputs : MapPrevTx) : Prop :=
  ∀ hash txindex txPrev, inputs hash = some (txindex, txPrev) →
    idx hash = some txindex ∧ readPrev env hash (some txindex.pos) = .ok txPrev

theorem Fetched.prevOut {inputs : MapPrevTx} (hf : Fetched env idx inputs) {o : COutPoint}
    (h : inputs o.hash = some (txindex, txPrev)) :
    NovaCoin.prevOut env idx o = txPrev.vout[o.n.toNat]? := by
  obtain ⟨he, hp⟩ := hf _ _ _ h
  simp [NovaCoin.prevOut, he, hp, Except.toOption]

section Fetch

variable {queue : QueuedChanges} {fBlock fMiner : Bool}

theorem readTxIndex_eq_view (hb : (fBlock || fMiner)) (hash : Uint256) :
    readTxIndex db queue fBlock fMiner hash = view db queue hash :=
  if_pos hb

/-- One input: what was there stays, and the entry of the input is there afterwards. -/
theorem fetchInput_eq_ok (hb : (fBlock || fMiner)) {inputs inputs' : MapPrevTx}
    (h : fetchInput env db queue fBlock fMiner inputs txin = .ok inputs')
    (hf : Fetched env (view db queue) inputs) :
    Fetched env (view db queue) inputs' ∧ (inputs' txin.prevout.hash).isSome ∧
      ∀ hash, (inputs hash).isSome → (inputs' hash).isSome := by
  simp only [fetchInput, readTxIndex_eq_view hb] at h
  split at h
  · next hs =>
    cases h
    exact ⟨hf, hs, fun _ => id⟩
  · split at h
    · next txindex he =>
      obtain ⟨txPrev, hp, hi⟩ := bind_eq_ok.mp h
      cases hi
      refine ⟨?_, by simp [MapPrevTx.insert], fun hash hs => ?_⟩
      · intro hash e t ht
        simp only [MapPrevTx.insert] at ht
        split at ht
        · next heq =>
          cases ht
          rw [heq]
          exact ⟨he, hp⟩
        · exact hf hash e t ht
      · simp only [MapPrevTx.insert]
        split
        · rfl
        · exact hs
    · obtain ⟨hnot, -⟩ := require_bind_eq_ok.mp h
      simp [hb] at hnot

theorem fetchInputs_loop (hb : (fBlock || fMiner)) :
    ∀ {vin : List CTxIn} {inputs inputs' : MapPrevTx},
      foldAll (fetchInput env db queue fBlock fMiner) inputs vin = .ok inputs' →
      Fetched env (view db queue) inputs →
      Fetched env (view db queue) inputs' ∧ (∀ txin ∈ vin, (inputs' txin.prevout.hash).isSome) ∧
        ∀ hash, (inputs hash).isSome → (inputs' hash).isSome
  | [], _, _, h, hf => by
    cases h
    exact ⟨hf, by simp, fun _ => id⟩
  | txin :: vin, _, _, h, hf => by
    obtain ⟨_, h₁, hl⟩ := foldAll_cons_eq_ok.mp h
    obtain ⟨hf₁, hs₁, hk₁⟩ := fetchInput_eq_ok hb h₁ hf
    obtain ⟨hf', hs', hk'⟩ := fetchInputs_loop hb hl hf₁
    exact ⟨hf', forall_mem_cons.mpr ⟨hk' _ hs₁, hs'⟩, fun hash hs => hk' hash (hk₁ hash hs)⟩

theorem fetchInputs_eq_ok (hb : (fBlock || fMiner)) {inputs : MapPrevTx}
    (h : fetchInputs env db queue fBlock fMiner tx = .ok inputs) :
    Fetched env (view db queue) inputs := by
  simp only [fetchInputs] at h
  split at h
  · cases h
    intro _ _ _ hn
    cases hn
  · obtain ⟨inputs₁, h₁, h₂⟩ := bind_eq_ok.mp h
    obtain ⟨-, -, hp⟩ := bind_eq_ok.mp h₂
    cases hp
    exact (fetchInputs_loop hb h₁ fun _ _ _ hn => by cases hn).1

end Fetch

/-! ## The values of the inputs -/

def inputValue (inputs : MapPrevTx) (txin : CTxIn) : Int64 :=
  (((inputs txin.prevout.hash).bind fun p => p.2.vout[txin.prevout.n.toNat]?).map (·.nValue)).getD 0

/-- What the first loop of `ConnectInputs` establishes for an input. -/
structure InputOk (env : Env) (args : ConnectArgs) (tx : CTransaction) (inputs : MapPrevTx)
    (txin : CTxIn) (txindex : CTxIndex) (txPrev : CTransaction) (txout : CTxOut) : Prop where
  found : inputs txin.prevout.hash = some (txindex, txPrev)
  vout : txPrev.vout[txin.prevout.n.toNat]? = some txout
  vSpent : txin.prevout.n.toNat < txindex.vSpent.length
  mature : ((txPrev.isCoinBase || txPrev.isCoinStake) &&
    isImmature env.fTestNet args.pindexBlock txindex.pos) = false
  nTime : txPrev.nTime ≤ tx.nTime
  range : moneyRange txout.nValue = true

variable {txout : CTxOut} {vin : List CTxIn} {args : ConnectArgs}

theorem InputOk.inputValue_eq {inputs : MapPrevTx}
    (h : InputOk env args tx inputs txin txindex txPrev txout) :
    inputValue inputs txin = txout.nValue := by
  simp [inputValue, h.found, h.vout]

section Values

variable {inputs : MapPrevTx} {s : Int64}

theorem checkInput_eq_ok :
    checkInput env args tx inputs s txin = .ok s' ↔
      (∃ txindex txPrev txout, InputOk env args tx inputs txin txindex txPrev txout) ∧
      moneyRange (s + inputValue inputs txin) ∧ s' = s + inputValue inputs txin := by
  simp only [checkInput, bind_eq_ok, require_eq_ok, exists_const, getOr_eq_ok, Prod.exists,
    Bool.and_eq_true, Bool.not_eq_true', decide_eq_true_eq, pure, Except.pure, Except.ok.injEq]
  constructor
  · rintro ⟨txindex, txPrev, hfound, txout, hvout, hspent, hmature, htime, ⟨hrange, hr⟩, rfl⟩
    have hok : InputOk env args tx inputs txin txindex txPrev txout :=
      ⟨hfound, hvout, hspent, hmature, htime, hrange⟩
    rw [hok.inputValue_eq]
    exact ⟨⟨txindex, txPrev, txout, hok⟩, hr, rfl⟩
  · rintro ⟨⟨txindex, txPrev, txout, hok⟩, hr, rfl⟩
    rw [hok.inputValue_eq] at hr ⊢
    exact ⟨txindex, txPrev, hok.found, txout, hok.vout, hok.vSpent, hok.mature, hok.nTime,
      ⟨hok.range, hr⟩, rfl⟩

theorem checkInputs_all (h : foldAll (checkInput env args tx inputs) s vin = .ok s') :
    ∀ txin ∈ vin, ∃ txindex txPrev txout, InputOk env args tx inputs txin txindex txPrev txout := by
  intro txin htxin
  obtain ⟨_, _, h⟩ := exists_step_of_foldAll h htxin
  exact (checkInput_eq_ok.mp h).1

/-- The tests of the first loop of `ConnectInputs` on an input, whatever its value. -/
def InputUsable (env : Env) (args : ConnectArgs) (tx : CTransaction) (inputs : MapPrevTx)
    (txin : CTxIn) : Prop :=
  ∃ txindex txPrev txout, inputs txin.prevout.hash = some (txindex, txPrev) ∧
    txPrev.vout[txin.prevout.n.toNat]? = some txout ∧
    txin.prevout.n.toNat < txindex.vSpent.length ∧
    ((txPrev.isCoinBase || txPrev.isCoinStake) &&
      isImmature env.fTestNet args.pindexBlock txindex.pos) = false ∧ txPrev.nTime ≤ tx.nTime

/-- The first loop of `ConnectInputs`: the sum of the inputs is exact. -/
theorem addsUp_checkInputs (env : Env) (args : ConnectArgs) (tx : CTransaction)
    (inputs : MapPrevTx) :
    AddsUp (∀ txin ∈ tx.vin, InputUsable env args tx inputs txin)
      (tx.vin.map (inputValue inputs)) (foldAll (checkInput env args tx inputs) 0 tx.vin) := by
  refine addsUp_foldAll fun s txin s' => ?_
  rw [checkInput_eq_ok]
  constructor
  · rintro ⟨⟨txindex, txPrev, txout, hok⟩, hr, hs⟩
    exact ⟨⟨txindex, txPrev, txout, hok.found, hok.vout, hok.vSpent, hok.mature, hok.nTime⟩,
      by rw [hok.inputValue_eq]; exact hok.range, hr, hs.symm⟩
  · rintro ⟨⟨txindex, txPrev, txout, hfound, hvout, hspent, hmature, htime⟩, hv, hr, hs⟩
    refine ⟨⟨txindex, txPrev, txout, hfound, hvout, hspent, hmature, htime, ?_⟩, hr, hs.symm⟩
    simpa [inputValue, hfound, hvout] using hv

theorem checkInputs_sum {value : CTxIn → Int}
    (h : foldAll (checkInput env args tx inputs) 0 tx.vin = .ok v)
    (hvalue : ∀ txin ∈ tx.vin, ∀ txindex txPrev txout,
      InputOk env args tx inputs txin txindex txPrev txout → txout.nValue.toInt = value txin) :
    v.toInt = (tx.vin.map value).sum := by
  rw [((addsUp_checkInputs ..).exact v h).2, map_map]
  congr 1
  refine map_congr_left fun txin htx => ?_
  obtain ⟨txindex, txPrev, txout, hok⟩ := checkInputs_all h txin htx
  rw [Function.comp_apply, hok.inputValue_eq, hvalue txin htx _ _ _ hok]

theorem InputOk.prevOut_eq (h : InputOk env args tx inputs txin txindex txPrev txout)
    (hf : Fetched env idx inputs) :
    prevOut env idx txin.prevout = some txout := by
  rw [hf.prevOut h.found, h.vout]

theorem getOutputFor_eq_ok (h : getOutputFor inputs txin = .ok txout) :
    inputValue inputs txin = txout.nValue := by
  obtain ⟨⟨txindex, txPrev⟩, hfound, h⟩ := bind_eq_ok.mp h
  simp [inputValue, getOr_eq_ok.mp hfound, getOr_eq_ok.mp h]

theorem CTransaction.getValueIn_eq_ok (hcb : tx.isCoinBase = false)
    (h : tx.getValueIn inputs = .ok v) :
    v = .ofInt ((tx.vin.map (inputValue inputs)).map Int64.toInt).sum := by
  have hloop : ∀ {vin : List CTxIn} {s v : Int64}, foldAll (fun nResult txin => do
      let txout ← getOutputFor inputs txin
      pure (nResult + txout.nValue)) s vin = .ok v →
      v = s + .ofInt ((vin.map (inputValue inputs)).map Int64.toInt).sum := by
    intro vin
    induction vin with
    | nil =>
      intro s v h
      cases h
      exact (Int64.add_zero s).symm
    | cons txin vin ih =>
      intro s v h
      obtain ⟨s₁, h₁, hl⟩ := foldAll_cons_eq_ok.mp h
      obtain ⟨txout, ho, hp⟩ := bind_eq_ok.mp h₁
      cases hp
      rw [ih hl, map_cons, map_cons, sum_cons, getOutputFor_eq_ok ho, Int64.ofInt_add,
        Int64.ofInt_toInt, Int64.add_assoc]
  rw [getValueIn, if_neg (by simp [hcb])] at h
  rw [hloop h, Int64.zero_add]

/-- The sum without checks is the one with checks. -/
theorem getValueIn_eq_checkInputs (hcb : tx.isCoinBase = false) {v' : Int64}
    (h : tx.getValueIn inputs = .ok v)
    (h' : foldAll (checkInput env args tx inputs) 0 tx.vin = .ok v') : v = v' := by
  rw [CTransaction.getValueIn_eq_ok hcb h, ← ((addsUp_checkInputs ..).exact v' h').2,
    Int64.ofInt_toInt]

end Values

/-! ## Spending -/

/-- The copy of the inputs that `ConnectInputs` works on follows the queued changes. -/
def InSync (db : TxDB) (s : SpendState) : Prop :=
  ∀ hash txindex txPrev, s.inputs hash = some (txindex, txPrev) →
    view db s.mapTestPool hash = some txindex

/-- What the body of the second loop of `ConnectInputs` establishes and does. -/
theorem spendInput_eq_ok {s s' : SpendState} {nIn : Nat} :
    spendInput env args tx s (txin, nIn) = .ok s' ↔ ∃ txindex txPrev p,
      s.inputs txin.prevout.hash = some (txindex, txPrev) ∧
      txindex.vSpent[txin.prevout.n.toNat]? = some p ∧ p.isNull ∧
      (args.fScriptChecks → args.pvChecks = false →
        (CScriptCheck.new txPrev tx txin nIn args.flags).run env.crypto) ∧
      s' =
        { inputs := s.inputs.insert txin.prevout.hash
            ({ txindex with vSpent := txindex.vSpent.set txin.prevout.n.toNat args.posThisTx }, txPrev)
          mapTestPool :=
            if args.fBlock || args.fMiner then s.mapTestPool.insert txin.prevout.hash
              { txindex with vSpent := txindex.vSpent.set txin.prevout.n.toNat args.posThisTx }
            else s.mapTestPool
          vChecks :=
            if args.fScriptChecks && args.pvChecks then
              s.vChecks ++ [CScriptCheck.new txPrev tx txin nIn args.flags]
            else s.vChecks } := by
  constructor
  · intro h
    obtain ⟨⟨txindex, txPrev⟩, hfound, h⟩ := bind_eq_ok.mp h
    obtain ⟨hnull, h⟩ := require_bind_eq_ok.mp h
    obtain ⟨hscript, h⟩ := require_bind_eq_ok.mp h
    cases h
    cases hp : txindex.vSpent[txin.prevout.n.toNat]? with
    | none => simp [hp] at hnull
    | some p =>
      refine ⟨txindex, txPrev, p, getOr_eq_ok.mp hfound, hp, by simpa [hp] using hnull, ?_, rfl⟩
      intro hf hpv
      simpa [hf, hpv] using hscript
  · rintro ⟨txindex, txPrev, p, hfound, hp, hnull, hscript, rfl⟩
    refine bind_eq_ok.mpr ⟨(txindex, txPrev), getOr_eq_ok.mpr hfound, ?_⟩
    refine require_bind_eq_ok.mpr ⟨by simp [hp, hnull], ?_⟩
    refine require_bind_eq_ok.mpr ⟨?_, rfl⟩
    cases hf : args.fScriptChecks with
    | false => rfl
    | true =>
      cases hpv : args.pvChecks with
      | true => rfl
      | false => exact hscript hf hpv

theorem connectInputs_iff (hcb : tx.isCoinBase = false) {queue queue' : QueuedChanges}
    {vChecks : List CScriptCheck} : connectInputs env db inputs queue args tx = .ok (queue', vChecks) ↔
      ∃ nValueIn, foldAll (checkInput env args tx inputs) 0 tx.vin = .ok nValueIn ∧
      ∃ s, foldAll (spendInput env args tx) ⟨inputs, queue, []⟩ tx.vin.zipIdx = .ok s ∧
        checkAmounts env db args tx nValueIn = .ok () ∧ s.mapTestPool = queue' ∧ s.vChecks = vChecks := by
  simp only [connectInputs, hcb, Bool.false_eq_true, if_false, bind_eq_ok, Unique.exists_iff, pure,
    Except.pure, Except.ok.injEq, Prod.mk.injEq]

theorem spendInput_view (hb : (args.fBlock || args.fMiner)) {s s' : SpendState}
    {input : CTxIn × Nat} (h : spendInput env args tx s input = .ok s') (hs : InSync db s) :
    InSync db s' ∧ Unspent (view db s.mapTestPool) input.1.prevout.slot ∧
      view db s'.mapTestPool =
        mark (view db s.mapTestPool) input.1.prevout.slot args.posThisTx := by
  obtain ⟨txin, nIn⟩ := input
  obtain ⟨txindex, txPrev, p, hfound, hp, hnull, -, rfl⟩ := spendInput_eq_ok.mp h
  have he : view db s.mapTestPool txin.prevout.slot.1 = some txindex := hs _ _ _ hfound
  have hview : view db (s.mapTestPool.insert txin.prevout.hash
      { txindex with vSpent := txindex.vSpent.set txin.prevout.n.toNat args.posThisTx }) =
      mark (view db s.mapTestPool) txin.prevout.slot args.posThisTx := by
    rw [view_insert]
    exact update_eq_mark he args.posThisTx
  simp only [hb, if_true]
  refine ⟨?_, ⟨p, by rw [slot_eq_of_entry he]; exact hp, hnull⟩, hview⟩
  intro hash e t ht
  simp only [MapPrevTx.insert] at ht
  rw [view_insert]
  simp only
  split at ht
  · next heq =>
    cases ht
    rw [if_pos heq]
  · next hne =>
    rw [if_neg hne]
    exact hs hash e t ht

theorem spendInputs_view (hb : (args.fBlock || args.fMiner)) :
    ∀ {inputs : List (CTxIn × Nat)} {s s' : SpendState},
      foldAll (spendInput env args tx) s inputs = .ok s' → InSync db s →
      (inputs.map (·.1.prevout.slot)).Nodup →
      (∀ o ∈ inputs.map (·.1.prevout.slot), Unspent (view db s.mapTestPool) o) ∧
      view db s'.mapTestPool =
        markAll (view db s.mapTestPool) (inputs.map (·.1.prevout.slot)) args.posThisTx
  | [], _, _, h, _, _ => by
    cases h
    exact ⟨by simp, rfl⟩
  | input :: inputs, s, s', h, hs, hd => by
    obtain ⟨s₁, h₁, hl⟩ := foldAll_cons_eq_ok.mp h
    obtain ⟨hs₁, hu, hv⟩ := spendInput_view hb h₁ hs
    rw [map_cons, nodup_cons] at hd
    obtain ⟨hus, hvs⟩ := spendInputs_view hb hl hs₁ hd.2
    refine ⟨forall_mem_cons.mpr ⟨hu, fun o ho => ?_⟩, ?_⟩
    · -- the mark of this input is at another outpoint
      have hne : o ≠ input.1.prevout.slot := fun he => hd.1 (he ▸ ho)
      obtain ⟨p, hp, hn⟩ := hus o ho
      rw [hv, slot_mark_of_ne hne] at hp
      exact ⟨p, hp, hn⟩
    · rw [hvs, hv, map_cons, markAll]

/-! ## DisconnectInputs -/

theorem index_insert (db : TxDB) (hash : Uint256) (e : CTxIndex) :
    index (db.insert hash e) = fun h => if h = hash then some e else index db h := by
  funext h
  by_cases hh : h = hash
  · subst hh
    simp [index]
  · simp [index, hh, Finmap.lookup_insert_of_ne _ hh]

theorem disconnectInput_eq_ok {db' : TxDB} (h : disconnectInput db txin = .ok db') :
    (slot (index db) txin.prevout.slot).isSome ∧
      index db' = mark (index db) txin.prevout.slot null := by
  obtain ⟨e, he, h⟩ := bind_eq_ok.mp h
  obtain ⟨hn, h⟩ := require_bind_eq_ok.mp h
  cases h
  replace he : index db txin.prevout.slot.1 = some e := getOr_eq_ok.mp he
  constructor
  · rw [slot_eq_of_entry he]
    simpa [COutPoint.slot] using hn
  · rw [index_insert]
    exact update_eq_mark he null

theorem exists_disconnectInput (hs : (slot (index db) txin.prevout.slot).isSome) :
    ∃ db', disconnectInput db txin = .ok db' := by
  obtain ⟨p, hp⟩ := Option.isSome_iff_exists.mp hs
  obtain ⟨e, he, hn⟩ := exists_entry_of_slot hp
  obtain ⟨hlt, -⟩ := List.getElem?_eq_some_iff.mp hn
  have he' : db.lookup txin.prevout.hash = some e := he
  have hlt' : txin.prevout.n.toNat < e.vSpent.length := hlt
  refine ⟨db.insert txin.prevout.hash
    { e with vSpent := e.vSpent.set txin.prevout.n.toNat CDiskTxPos.null }, ?_⟩
  refine bind_eq_ok.mpr ⟨e, getOr_eq_ok.mpr he', ?_⟩
  exact require_bind_eq_ok.mpr ⟨decide_eq_true hlt', rfl⟩

theorem disconnectLoop_eq_ok : ∀ {vin : List CTxIn} {db db' : TxDB},
    foldAll disconnectInput db vin = .ok db' →
      (∀ o ∈ vin.map (·.prevout.slot), (slot (index db) o).isSome) ∧
      index db' = markAll (index db) (vin.map (·.prevout.slot)) null
  | [], _, _, h => by
    cases h
    exact ⟨by simp, rfl⟩
  | txin :: vin, db, db', h => by
    obtain ⟨db₁, h₁, hl⟩ := foldAll_cons_eq_ok.mp h
    obtain ⟨hs, hi⟩ := disconnectInput_eq_ok h₁
    obtain ⟨hss, hi'⟩ := disconnectLoop_eq_ok hl
    rw [hi] at hss hi'
    simp only [isSome_slot_mark] at hss
    exact ⟨forall_mem_cons.mpr ⟨hs, hss⟩, hi'⟩

theorem exists_disconnectLoop (hs : ∀ o ∈ vin.map (·.prevout.slot), (slot (index db) o).isSome) :
    ∃ db', foldAll disconnectInput db vin = .ok db' := by
  refine Exists.imp (fun _ => And.left) (exists_foldAll
    (I := fun db => ∀ o ∈ vin.map (·.prevout.slot), (slot (index db) o).isSome) hs fun txin hin db hs => ?_)
  obtain ⟨db₁, h₁⟩ := exists_disconnectInput (hs _ (mem_map_of_mem hin))
  refine ⟨db₁, h₁, ?_⟩
  rw [(disconnectInput_eq_ok h₁).2]
  simpa only [isSome_slot_mark] using hs

theorem index_erase (db : TxDB) (hash : Uint256) :
    index (db.erase hash) = fun h => if h = hash then none else index db h := by
  funext h
  by_cases hh : h = hash
  · subst hh
    simp [index]
  · simp [index, hh, Finmap.lookup_erase_ne hh]

theorem CTransaction.item_spends {crypto : Crypto} {pos : CDiskTxPos} (h : tx.isCoinBase = false) :
    (tx.item crypto pos).spends = tx.vin.map (·.prevout.slot) := by
  simp [item, spends_of_not_isCoinBase h]

theorem CTransaction.item_spends_of_isCoinBase {crypto : Crypto} {pos : CDiskTxPos}
    (h : tx.isCoinBase) : (tx.item crypto pos).spends = [] := by
  simp [item, spends_of_isCoinBase h]

section Disconnect

variable {crypto : Crypto} {db' : TxDB} (pos : CDiskTxPos)

theorem disconnectInputs_eq_ok (h : disconnectInputs crypto db tx = .ok db') :
    Disconnectable (index db) (tx.item crypto pos) ∧
      index db' = disconnect (index db) (tx.item crypto pos) := by
  obtain ⟨db₁, h₁, h⟩ := bind_eq_ok.mp h
  cases h
  rw [index_erase]
  unfold disconnectSpends at h₁
  unfold Disconnectable disconnect
  cases hcb : tx.isCoinBase with
  | true =>
    rw [hcb] at h₁
    cases h₁
    rw [CTransaction.item_spends_of_isCoinBase hcb]
    exact ⟨by simp, rfl⟩
  | false =>
    rw [hcb] at h₁
    obtain ⟨hs, hi⟩ := disconnectLoop_eq_ok h₁
    rw [CTransaction.item_spends hcb, hi]
    exact ⟨hs, rfl⟩

theorem exists_disconnectInputs (hd : Disconnectable (index db) (tx.item crypto pos)) :
    ∃ db', disconnectInputs crypto db tx = .ok db' := by
  obtain ⟨db₁, h₁⟩ : ∃ db₁, disconnectSpends db tx = .ok db₁ := by
    unfold disconnectSpends
    cases hcb : tx.isCoinBase with
    | true => exact ⟨db, rfl⟩
    | false =>
      unfold Disconnectable at hd
      rw [CTransaction.item_spends hcb] at hd
      exact exists_disconnectLoop hd
  exact ⟨db₁.erase (crypto.txHash tx), bind_eq_ok.mpr ⟨db₁, h₁, rfl⟩⟩

end Disconnect

/-! ## The minimum fee

`GetMinFee` without overflow: a base fee for each thousand bytes, unless the transaction is free, and
one for each small output. Far from a full block nothing is added to that. -/

/-- An output for which one more base fee is asked. -/
def CTxOut.isDust (txout : CTxOut) : Bool := txout.nValue < CENT && !txout.isEmpty

namespace CTransaction

def baseFee (tx : CTransaction) (mode : GetMinFeeMode) : Int64 :=
  if mode = .GMF_RELAY then if tx.isCoinStake then CENT else MIN_RELAY_TX_FEE
  else if tx.isCoinStake then CENT else MIN_TX_FEE

theorem baseFee_bounds (tx : CTransaction) (mode : GetMinFeeMode) :
    200 ≤ (tx.baseFee mode).toInt ∧ (tx.baseFee mode).toInt ≤ 10000 := by
  unfold baseFee
  split <;> split <;> decide

/-- Enough room for the outputs in the size. -/
theorem length_vout_le (tx : CTransaction) : tx.vout.length ≤ tx.getSerializeSize := by
  have hsum : tx.vout.length ≤ (tx.vout.flatMap CTxOut.serialize).length := by
    induction tx.vout with
    | nil => simp
    | cons txout vout ih =>
      have hpos : 1 ≤ txout.serialize.length := by
        simp only [CTxOut.serialize, length_append, length_leBytes]
        omega
      simp only [flatMap_cons, length_append, length_cons]
      omega
  simp only [getSerializeSize, serialize, serializeVector, length_append]
  omega

end CTransaction

/-- The base fee is added for each output of dust, without overflow. -/
theorem toInt_dustFees (nBaseFee : Int64) (hbase : 0 ≤ nBaseFee.toInt) (vout : List CTxOut) :
    ∀ {nMinFee : Int64}, 0 ≤ nMinFee.toInt → nMinFee.toInt + nBaseFee.toInt * vout.length < 2 ^ 63 →
      (vout.foldl (fun fee txout =>
        if txout.nValue < CENT && !txout.isEmpty then fee + nBaseFee else fee) nMinFee).toInt =
      nMinFee.toInt + nBaseFee.toInt * vout.countP CTxOut.isDust := by
  induction vout with
  | nil => simp
  | cons txout vout ih =>
    intro nMinFee hfee hlt
    have hrest : 0 ≤ nBaseFee.toInt * (vout.length : Int) := Int.mul_nonneg hbase (by omega)
    have hlen : nBaseFee.toInt * ((txout :: vout).length : Int) =
        nBaseFee.toInt * (vout.length : Int) + nBaseFee.toInt := by
      rw [length_cons]
      push_cast
      ring
    rw [foldl_cons, countP_cons]
    by_cases hdust : txout.isDust
    · have hadd : (nMinFee + nBaseFee).toInt = nMinFee.toInt + nBaseFee.toInt := by
        rw [Int64.toInt_add]
        exact Int.bmod_eq_of_le (by omega) (by omega)
      have hcond : (decide (txout.nValue < CENT) && !txout.isEmpty) := hdust
      rw [if_pos hcond, if_pos hdust, ih (by omega) (by omega), hadd]
      push_cast
      ring
    · have hcond : ¬ (decide (txout.nValue < CENT) && !txout.isEmpty) := hdust
      rw [if_neg hcond, if_neg hdust, ih hfee (by omega), Nat.add_zero]

namespace CTransaction

def isFree (nBlockSize : Nat) (fAllowFree : Bool) (nBytes : Nat) : Bool :=
  fAllowFree && if nBlockSize == 1 then nBytes < 1000 else nBlockSize + nBytes < 27000

def sizeFee (tx : CTransaction) (nBlockSize : Nat) (fAllowFree : Bool) (mode : GetMinFeeMode)
    (nBytes : Nat) : Int :=
  if isFree nBlockSize fAllowFree nBytes then 0
  else (1 + (nBytes / 1000 : Nat)) * (tx.baseFee mode).toInt

variable {nBytes : Nat}

theorem sizeFee_bounds (tx : CTransaction) (nBlockSize : Nat) (fAllowFree : Bool)
    (mode : GetMinFeeMode) (hbytes : nBytes < 2 ^ 32) :
    0 ≤ tx.sizeFee nBlockSize fAllowFree mode nBytes ∧
      tx.sizeFee nBlockSize fAllowFree mode nBytes ≤ 2 ^ 32 * 10000 := by
  obtain ⟨hlow, hhigh⟩ := tx.baseFee_bounds mode
  unfold sizeFee
  split
  · decide
  · exact ⟨Int.mul_nonneg (by omega) (by omega),
      Int.mul_le_mul (by omega) hhigh (by omega) (by omega)⟩

theorem toInt_sizeFee (tx : CTransaction) (mode : GetMinFeeMode) (hbytes : nBytes < 2 ^ 32) :
    ((1 + Int64.ofNat (nBytes / 1000)) * tx.baseFee mode).toInt =
      (1 + (nBytes / 1000 : Nat)) * (tx.baseFee mode).toInt := by
  obtain ⟨hlow, hhigh⟩ := tx.baseFee_bounds mode
  have hn : (1 + Int64.ofNat (nBytes / 1000)).toInt = 1 + (nBytes / 1000 : Nat) := by
    have hof : (Int64.ofNat (nBytes / 1000)).toInt = (nBytes / 1000 : Nat) :=
      Int64.toInt_ofNat_of_lt (by omega)
    rw [Int64.toInt_add, hof, show (1 : Int64).toInt = 1 from rfl]
    exact Int.bmod_eq_of_le (by omega) (by omega)
  rw [Int64.toInt_mul, hn]
  have hpos : 0 ≤ (1 + ((nBytes / 1000 : Nat) : Int)) * (tx.baseFee mode).toInt :=
    Int.mul_nonneg (by omega) (by omega)
  have hle : (1 + ((nBytes / 1000 : Nat) : Int)) * (tx.baseFee mode).toInt ≤ 2 ^ 32 * 10000 :=
    Int.mul_le_mul (by omega) hhigh (by omega) (by omega)
  exact Int.bmod_eq_of_le (by omega) (by omega)

/-- `GetMinFee` for a template without a size, or far from full. -/
theorem toInt_getMinFee (tx : CTransaction) {nBlockSize : Nat} (fAllowFree : Bool)
    (mode : GetMinFeeMode) (hbytes : nBytes < 2 ^ 32) (hvout : tx.vout.length ≤ nBytes)
    (hblock : nBlockSize = 1 ∨ nBlockSize + nBytes < MAX_BLOCK_SIZE_GEN / 2) :
    (tx.getMinFee nBlockSize fAllowFree mode nBytes).toInt =
      tx.sizeFee nBlockSize fAllowFree mode nBytes +
        (tx.baseFee mode).toInt * tx.vout.countP CTxOut.isDust := by
  obtain ⟨hlow, hhigh⟩ := tx.baseFee_bounds mode
  obtain ⟨hnonneg, hless⟩ := tx.sizeFee_bounds nBlockSize fAllowFree mode hbytes
  -- the fee before the small outputs
  obtain ⟨nMinFee, hfee, hsize⟩ : ∃ nMinFee : Int64, (if isFree nBlockSize fAllowFree nBytes then 0
        else (1 + Int64.ofNat (nBytes / 1000)) * tx.baseFee mode) = nMinFee ∧
      nMinFee.toInt = tx.sizeFee nBlockSize fAllowFree mode nBytes := by
    refine ⟨_, rfl, ?_⟩
    unfold sizeFee
    split
    · rfl
    · exact tx.toInt_sizeFee mode hbytes
  rw [← hsize] at hnonneg hless
  have hdust : (tx.baseFee mode).toInt * (tx.vout.length : Int) ≤ 10000 * 2 ^ 32 :=
    Int.mul_le_mul hhigh (by omega) (by omega) (by omega)
  have hfold := toInt_dustFees (tx.baseFee mode) (by omega) tx.vout hnonneg (by omega)
  have hcount : 0 ≤ (tx.baseFee mode).toInt * (tx.vout.countP CTxOut.isDust : Int) :=
    Int.mul_nonneg (by omega) (by omega)
  have hraise : (nBlockSize != 1 && decide (MAX_BLOCK_SIZE_GEN / 2 ≤ nBlockSize + nBytes)) = false := by
    rcases hblock with rfl | hlt
    · rfl
    · rw [decide_eq_false (Nat.not_le.mpr hlt), Bool.and_false]
  have hmode : (if mode == .GMF_RELAY then if tx.isCoinStake then CENT else MIN_RELAY_TX_FEE
      else if tx.isCoinStake then CENT else MIN_TX_FEE) = tx.baseFee mode := by
    cases mode <;> rfl
  unfold isFree at hfee
  unfold getMinFee
  dsimp only
  rw [hmode, hfee, hraise, if_neg (by simp)]
  rw [if_pos (moneyRange_iff.mpr (by rw [hfold]; omega)), hfold, hsize]

section

variable (tx : CTransaction) (fAllowFree : Bool) (hstake : tx.isCoinStake = false)
  (hbytes : nBytes < 100000) (hvout : tx.vout.length ≤ nBytes)
include hstake hbytes hvout

theorem relayFee_le_sendFee :
    tx.getMinFee 1000 true .GMF_RELAY nBytes ≤ tx.getMinFee 1 fAllowFree .GMF_SEND nBytes := by
  have hgen : MAX_BLOCK_SIZE_GEN / 2 = 250000 := rfl
  have hrelay : (tx.baseFee .GMF_RELAY).toInt = 200 := by
    simp only [baseFee, hstake]
    decide
  have hsend : (tx.baseFee .GMF_SEND).toInt = 1000 := by
    simp only [baseFee, hstake]
    decide
  rw [Int64.le_iff_toInt_le, tx.toInt_getMinFee true .GMF_RELAY (by omega) hvout (by omega),
    tx.toInt_getMinFee fAllowFree .GMF_SEND (by omega) hvout (.inl rfl), hrelay, hsend]
  have hsize : tx.sizeFee 1000 true .GMF_RELAY nBytes ≤ tx.sizeFee 1 fAllowFree .GMF_SEND nBytes := by
    simp only [sizeFee, hrelay, hsend]
    split
    · split
      · exact Int.le_refl 0
      · exact Int.mul_nonneg (by omega) (by omega)
    · next hnot =>
      -- then it is longer than a free transaction may be
      have hlong : 27000 ≤ 1000 + nBytes := by simpa [isFree] using hnot
      have hfree : ¬ isFree 1 fAllowFree nBytes := by
        simp [isFree]
        omega
      rw [if_neg hfree]
      omega
  omega

theorem sendFee_eq : ∃ n ≤ 100 + tx.vout.length,
      (tx.getMinFee 1 fAllowFree .GMF_SEND nBytes).toInt = 1000 * (n : Int) := by
  have hsend : (tx.baseFee .GMF_SEND).toInt = 1000 := by
    simp only [baseFee, hstake]
    decide
  have hcount : tx.vout.countP CTxOut.isDust ≤ tx.vout.length := countP_le_length
  rw [tx.toInt_getMinFee fAllowFree .GMF_SEND (by omega) hvout (.inl rfl)]
  simp only [sizeFee, hsend]
  split
  · exact ⟨tx.vout.countP CTxOut.isDust, by omega, by omega⟩
  · exact ⟨1 + nBytes / 1000 + tx.vout.countP CTxOut.isDust, by omega, by push_cast; ring⟩

end

end CTransaction

end NovaCoin
