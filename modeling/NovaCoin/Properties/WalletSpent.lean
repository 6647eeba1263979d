import NovaCoin.Infra.Runs
import NovaCoin.Wallet

/-!
# The flags of the outputs that are spent

A delivered transaction sets the flag of the wallet's outputs that it spends. But when a transaction
of the wallet is delivered with a block, `WalletUpdateSpent` clears the flags of all its own outputs,
also of those for which a spender came before. This is the only way to lose a flag
(`WalletState.walletSpent_iff`). Whether a transaction is in the wallet is settled when it is
delivered first, since its parents came before.
-/

namespace NovaCoin

open List

/-! ## Spent outputs -/

def spendsIn (vin : List CTxIn) (hash : Uint256) (n : Nat) : Bool :=
  vin.any fun txin => txin.prevout.hash == hash && txin.prevout.n.toNat == n

def spends (txs : List CTransaction) (hash : Uint256) (n : Nat) : Bool :=
  txs.any fun tx => spendsIn tx.vin hash n

@[simp] theorem spends_cons (tx : CTransaction) (txs : List CTransaction) (hash : Uint256) (n : Nat) :
    spends (tx :: txs) hash n = (spendsIn tx.vin hash n || spends txs hash n) := rfl

variable {n : Nat} {C : Crypto} {env : WalletEnv} {m : MainChain} {mapWallet : MapWallet}
  {tx : CTransaction}

theorem exists_of_spends {txs : List CTransaction} {hash : Uint256} (h : spends txs hash n) :
    ∃ tx ∈ txs, ∃ txin ∈ tx.vin, txin.prevout.hash = hash := by
  obtain ⟨tx, htx, hin⟩ := any_eq_true.mp h
  obtain ⟨txin, htxin, hboth⟩ := any_eq_true.mp hin
  simp only [Bool.and_eq_true, beq_iff_eq] at hboth
  exact ⟨tx, htx, txin, htxin, hboth.1⟩

def WalletEnv.spendableValue (env : WalletEnv) (txout : CTxOut) : Int64 :=
  if (env.isMine txout).passes MINE_SPENDABLE then txout.nValue else 0

/-! ## One transaction -/

namespace CWalletTx

variable {wtx wtx' wtx'' : CWalletTx}

theorem length_resizeSpent : wtx.resizeSpent.vfSpent.length = wtx.tx.vout.length := by
  simp only [resizeSpent, length_append, length_take, length_replicate]
  omega

theorem isSpent_resizeSpent (hn : n < wtx.tx.vout.length) :
    wtx.resizeSpent.isSpent n = wtx.isSpent n := by
  unfold isSpent resizeSpent
  simp only [getD_eq_getElem?_getD]
  by_cases hlen : n < wtx.vfSpent.length
  · rw [getElem?_append_left (by rw [length_take]; omega), getElem?_take_of_lt hn]
  · have hle : wtx.vfSpent.length ≤ n := Nat.le_of_not_lt hlen
    rw [getElem?_append_right (by rw [length_take]; omega),
      getElem?_eq_none_iff.mpr hle, getElem?_replicate]
    split <;> rfl

variable {fSpent : Bool} {k : Nat}

@[simp] theorem tx_setSpent : (wtx.setSpent n fSpent).tx = wtx.tx := by
  unfold setSpent
  split <;> rfl

theorem isSpent_setSpent (hn : n < wtx.vfSpent.length) :
    (wtx.setSpent n fSpent).isSpent k = if k = n then fSpent else wtx.isSpent k := by
  unfold setSpent
  split
  · next heq =>
    split
    · next hkn => rw [hkn, heq]
    · rfl
  · unfold isSpent
    by_cases hkn : n = k
    · subst hkn
      simp [hn]
    · simp [hkn, Ne.symm hkn]

/-- The total that is kept is the one that would be computed. -/
def CacheOk (env : WalletEnv) (wtx : CWalletTx) : Prop :=
  ∀ nCredit, wtx.nAvailableCreditCached = some nCredit →
    wtx.addCredits env MINE_SPENDABLE = some nCredit

theorem lt_of_mem_zipIdx {p : CTxOut × Nat} {vout : List CTxOut} (h : p ∈ vout.zipIdx) :
    vout[p.2]? = some p.1 := by
  exact mk_mem_zipIdx_iff_getElem?.mp h

/-- The total depends on the outputs and their flags only. -/
theorem addCredits_congr {filter : IsMineFilter} (htx : wtx'.tx = wtx.tx)
    (hspent : ∀ n, n < wtx.tx.vout.length → wtx'.isSpent n = wtx.isSpent n) :
    wtx'.addCredits env filter = wtx.addCredits env filter := by
  unfold addCredits
  rw [htx]
  refine Runs.run_congr (fun nCredit p hp => ?_) 0
  have hlt : p.2 < wtx.tx.vout.length := (List.getElem?_eq_some_iff.mp (lt_of_mem_zipIdx hp)).1
  rw [hspent p.2 hlt]

theorem CacheOk.resizeSpent (h : CacheOk env wtx) : CacheOk env wtx.resizeSpent := by
  intro nCredit hc
  have hsame : wtx.resizeSpent.addCredits env MINE_SPENDABLE = wtx.addCredits env MINE_SPENDABLE :=
    addCredits_congr rfl fun n hn => isSpent_resizeSpent hn
  rw [hsame]
  exact h nCredit hc

theorem CacheOk.setSpent (h : CacheOk env wtx) : CacheOk env (wtx.setSpent n fSpent) := by
  unfold CWalletTx.setSpent
  split
  · exact h
  · nofun

/-- The same transaction with other flags. -/
structure Flags (env : WalletEnv) (f : Nat → CTxOut → Bool → Bool) (wtx wtx' : CWalletTx) : Prop where
  tx : wtx'.tx = wtx.tx
  isSpent : ∀ n txout, wtx.tx.vout[n]? = some txout → wtx'.isSpent n = f n txout (wtx.isSpent n)
  cache : CacheOk env wtx → CacheOk env wtx'

theorem Flags.refl (env : WalletEnv) (wtx : CWalletTx) : Flags env (fun _ _ b => b) wtx wtx :=
  ⟨rfl, fun _ _ _ => rfl, id⟩

theorem Flags.trans {f g : Nat → CTxOut → Bool → Bool} (h : Flags env f wtx wtx')
    (h' : Flags env g wtx' wtx'') : Flags env (fun n txout b => g n txout (f n txout b)) wtx wtx'' := by
  refine ⟨h'.tx.trans h.tx, fun n txout hn => ?_, fun hc => h'.cache (h.cache hc)⟩
  rw [h'.isSpent n txout (by rw [h.tx]; exact hn), h.isSpent n txout hn]

theorem Flags.congr {f g : Nat → CTxOut → Bool → Bool} (h : Flags env f wtx wtx')
    (hfg : ∀ n txout, wtx.tx.vout[n]? = some txout → ∀ b, f n txout b = g n txout b) :
    Flags env g wtx wtx' :=
  ⟨h.tx, fun n txout hn => (h.isSpent n txout hn).trans (hfg n txout hn _), h.cache⟩

/-- `MarkSpent` and `MarkUnspent`. -/
theorem flags_setSpent (hk : k < wtx.tx.vout.length) :
    Flags env (fun n _ b => if n = k then fSpent else b) wtx (wtx.resizeSpent.setSpent k fSpent) := by
  refine ⟨tx_setSpent, fun n txout hn => ?_, fun hc => hc.resizeSpent.setSpent⟩
  rw [isSpent_setSpent (by rwa [length_resizeSpent]),
    isSpent_resizeSpent (List.getElem?_eq_some_iff.mp hn).1]

theorem flags_markUnspent (l : List (CTxOut × Nat)) :
    ∀ {wtx : CWalletTx}, (∀ p ∈ l, wtx.tx.vout[p.2]? = some p.1) →
      Flags env (fun n _ b => b && !(l.any fun p => p.2 == n && env.owns p.1)) wtx
        (l.foldl (fun wtx p => if env.owns p.1 then wtx.markUnspent p.2 else wtx) wtx) := by
  induction l with
  | nil =>
    intro wtx _
    exact (Flags.refl env wtx).congr fun n txout _ b => by simp
  | cons p l ih =>
    intro wtx hl
    have hp := hl p mem_cons_self
    have hlt : p.2 < wtx.tx.vout.length := (List.getElem?_eq_some_iff.mp hp).1
    rw [foldl_cons]
    by_cases howns : env.owns p.1
    · rw [if_pos howns]
      have hmark : Flags env (fun n _ b => if n = p.2 then false else b) wtx (wtx.markUnspent p.2) :=
        flags_setSpent hlt
      have hl' : ∀ q ∈ l, (wtx.markUnspent p.2).tx.vout[q.2]? = some q.1 := by
        intro q hq
        rw [hmark.tx]
        exact hl q (mem_cons_of_mem _ hq)
      refine (hmark.trans (ih hl')).congr fun n txout _ b => ?_
      by_cases hn : n = p.2
      · simp [hn, howns]
      · have hne : (p.2 == n) = false := by simpa using Ne.symm hn
        simp [hn, hne]
    · rw [if_neg howns]
      refine (ih fun q hq => hl q (mem_cons_of_mem _ hq)).congr fun n txout _ b => ?_
      simp [howns]

theorem flags_markOwnUnspent (env : WalletEnv) (wtx : CWalletTx) : Flags env (fun _ txout b => b && !env.owns txout) wtx
    (MapWallet.markOwnUnspent env wtx wtx.tx.vout) := by
  refine (flags_markUnspent wtx.tx.vout.zipIdx fun p hp => lt_of_mem_zipIdx hp).congr ?_
  intro n txout hn b
  have hany : (wtx.tx.vout.zipIdx.any fun p => p.2 == n && env.owns p.1) = env.owns txout := by
    rw [Bool.eq_iff_iff, any_eq_true]
    constructor
    · rintro ⟨p, hp, hboth⟩
      simp only [Bool.and_eq_true, beq_iff_eq] at hboth
      have hget := lt_of_mem_zipIdx hp
      rw [hboth.1, hn] at hget
      rw [Option.some.inj hget]
      exact hboth.2
    · intro howns
      exact ⟨(txout, n), mk_mem_zipIdx_iff_getElem?.mpr hn, by simp [howns]⟩
  rw [hany]

/-! ### Available credit -/

theorem tx_getDepthInMainChain {merkleTx : CMerkleTx} :
    (merkleTx.getDepthInMainChain C m).1.tx = merkleTx.tx := by
  unfold CMerkleTx.getDepthInMainChain
  split
  · rfl
  · split
    · rfl
    · split
      · rfl
      · split <;> rfl

theorem flags_getBlocksToMaturity :
    Flags env (fun _ _ b => b) wtx (wtx.getBlocksToMaturity env m).1 ∧
      (wtx.getBlocksToMaturity env m).1.nAvailableCreditCached = wtx.nAvailableCreditCached := by
  unfold getBlocksToMaturity
  split
  · exact ⟨Flags.refl env wtx, rfl⟩
  · have htx : (wtx.toCMerkleTx.getDepthInMainChain env.crypto m).1.tx = wtx.tx :=
      tx_getDepthInMainChain
    refine ⟨⟨htx, fun _ _ _ => rfl, fun hc nCredit hcached => ?_⟩, rfl⟩
    have hsame : addCredits env { wtx with toCMerkleTx :=
        (wtx.toCMerkleTx.getDepthInMainChain env.crypto m).1 } MINE_SPENDABLE =
          wtx.addCredits env MINE_SPENDABLE :=
      addCredits_congr htx fun _ _ => rfl
    exact hsame.trans (hc nCredit hcached)

/-- With or without the cache, the flags stay and the credit is that of the unspent outputs. -/
theorem getAvailableCredit_spec {fUseCache : Bool} {r : CWalletTx × Int64} (hc : CacheOk env wtx)
    (h : wtx.getAvailableCredit env m fUseCache = some r) :
    Flags env (fun _ _ b => b) wtx r.1 ∧
      (r.2 = 0 ∨ wtx.addCredits env MINE_SPENDABLE = some r.2) := by
  have hmaturity : Flags env (fun _ _ b => b) wtx (wtx.getBlocksToMaturity env m).1 ∧
      (wtx.getBlocksToMaturity env m).1.nAvailableCreditCached = wtx.nAvailableCreditCached :=
    flags_getBlocksToMaturity
  obtain ⟨hflags, hcached⟩ := hmaturity
  unfold getAvailableCredit at h
  generalize wtx.getBlocksToMaturity env m = p at h hflags hcached
  obtain ⟨wtx₁, nBlocksToMaturity⟩ := p
  simp only at h hflags hcached
  have hsame : wtx₁.addCredits env MINE_SPENDABLE = wtx.addCredits env MINE_SPENDABLE := by
    refine addCredits_congr hflags.tx fun n hn => ?_
    exact hflags.isSpent n _ (getElem?_eq_getElem hn)
  split at h
  · cases h
    exact ⟨hflags, .inl rfl⟩
  · split at h
    · next nCredit hkept =>
      cases h
      have hkept' : wtx.nAvailableCreditCached = some nCredit := by
        rw [← hcached]
        cases fUseCache with
        | true => exact hkept
        | false => cases hkept
      exact ⟨hflags, .inr (hc nCredit hkept')⟩
    · obtain ⟨nCredit, hadd, hr⟩ := Option.bind_eq_some_iff.mp h
      cases hr
      refine ⟨⟨hflags.tx, hflags.isSpent, fun _ nCredit' hnew => ?_⟩, .inr (hsame ▸ hadd)⟩
      cases hnew
      exact hadd

theorem addCredits_eq_foldl {nCredit : Int64} (h : wtx.addCredits env MINE_SPENDABLE = some nCredit) :
    nCredit = wtx.tx.vout.zipIdx.foldl (fun nCredit p =>
      if wtx.isSpent p.2 then nCredit
      else nCredit + env.spendableValue p.1) 0 := by
  unfold addCredits at h
  generalize wtx.tx.vout.zipIdx = l at h ⊢
  generalize (0 : Int64) = start at h ⊢
  induction l generalizing start with
  | nil => exact (Option.some.inj h).symm
  | cons p l ih =>
    rw [foldlM_cons] at h
    obtain ⟨next, hnext, hrest⟩ := Option.bind_eq_some_iff.mp h
    rw [foldl_cons, ih next hrest]
    congr 1
    split at hnext
    · next hspent =>
      rw [if_pos hspent]
      exact (Option.some.inj hnext).symm
    · next hspent =>
      rw [if_neg hspent]
      obtain ⟨credit, hcredit, hsum⟩ := Option.bind_eq_some_iff.mp hnext
      unfold WalletEnv.getCredit at hcredit
      split at hcredit
      · split at hsum
        · have hvalue : env.spendableValue p.1 = credit := Option.some.inj hcredit
          rw [hvalue]
          exact (Option.some.inj hsum).symm
        · cases hsum
      · cases hcredit

end CWalletTx

/-! ## The map -/

namespace MapWallet

open CWalletTx (Flags CacheOk)

/-- The same transactions with other flags. -/
structure Marks (env : WalletEnv) (f : Uint256 → Nat → CTxOut → Bool → Bool)
    (mapWallet mapWallet' : MapWallet) : Prop where
  absent : ∀ h, mapWallet.lookup h = none → mapWallet'.lookup h = none
  present : ∀ h wtx, mapWallet.lookup h = some wtx →
    ∃ wtx', mapWallet'.lookup h = some wtx' ∧ Flags env (f h) wtx wtx'

variable {mapWallet' mapWallet'' : MapWallet}

theorem Marks.refl (env : WalletEnv) (mapWallet : MapWallet) :
    Marks env (fun _ _ _ b => b) mapWallet mapWallet :=
  ⟨fun _ h => h, fun _ wtx h => ⟨wtx, h, Flags.refl env wtx⟩⟩

variable {f g : Uint256 → Nat → CTxOut → Bool → Bool}

theorem Marks.trans (h : Marks env f mapWallet mapWallet')
    (h' : Marks env g mapWallet' mapWallet'') :
    Marks env (fun hash n txout b => g hash n txout (f hash n txout b)) mapWallet mapWallet'' := by
  refine ⟨fun hash hn => h'.absent hash (h.absent hash hn), fun hash wtx hs => ?_⟩
  obtain ⟨wtx', hs', hf⟩ := h.present hash wtx hs
  obtain ⟨wtx'', hs'', hg⟩ := h'.present hash wtx' hs'
  exact ⟨wtx'', hs'', hf.trans hg⟩

theorem Marks.congr (h : Marks env f mapWallet mapWallet')
    (hfg : ∀ hash n txout b, f hash n txout b = g hash n txout b) :
    Marks env g mapWallet mapWallet' := by
  refine ⟨h.absent, fun hash wtx hs => ?_⟩
  obtain ⟨wtx', hs', hf⟩ := h.present hash wtx hs
  exact ⟨wtx', hs', hf.congr fun n txout _ b => hfg hash n txout b⟩

/-- One transaction is replaced. -/
theorem marks_insert {f : Nat → CTxOut → Bool → Bool} {hash : Uint256} {wtx wtx' : CWalletTx}
    (hs : mapWallet.lookup hash = some wtx) (hf : Flags env f wtx wtx') :
    Marks env (fun h n txout b => if h = hash then f n txout b else b) mapWallet
      (mapWallet.insert hash wtx') := by
  refine ⟨fun h hn => ?_, fun h wtx₁ hs₁ => ?_⟩
  · rw [AssocMap.lookup_insert_ite]
    split
    · next heq =>
      rw [heq, hs] at hn
      cases hn
    · exact hn
  · rw [AssocMap.lookup_insert_ite]
    split
    · next heq =>
      rw [heq, hs] at hs₁
      cases hs₁
      exact ⟨wtx', rfl, hf⟩
    · exact ⟨wtx₁, hs₁, Flags.refl env wtx₁⟩

/-- Marking one input sets the flag of the output it spends, and no other. -/
theorem marks_updateSpentIn (mapWallet : MapWallet) (txin : CTxIn) :
    Marks env (fun h n txout b => b || (env.owns txout && spendsIn [txin] h n)) mapWallet
      (updateSpentIn env mapWallet txin) := by
  unfold updateSpentIn
  cases hs : mapWallet.lookup txin.prevout.hash with
  | none =>
    refine ⟨fun _ h => h, fun h wtx hw => ⟨wtx, hw, (Flags.refl env wtx).congr fun n txout _ b => ?_⟩⟩
    have hne : txin.prevout.hash ≠ h := by
      rintro rfl
      rw [hs] at hw
      cases hw
    simp [spendsIn, hne]
  | some wtx =>
    -- the flags of the other transactions, and of the other outputs, stay
    have hother : ∀ h wtx₁, mapWallet.lookup h = some wtx₁ →
        (∀ n txout, wtx₁.tx.vout[n]? = some txout → env.owns txout →
          txin.prevout.hash = h → txin.prevout.n.toNat = n → wtx₁.isSpent n) →
        ∃ wtx', mapWallet.lookup h = some wtx' ∧
          Flags env (fun n txout b => b || (env.owns txout && spendsIn [txin] h n)) wtx₁ wtx' := by
      intro h wtx₁ hw hall
      refine ⟨wtx₁, hw, rfl, fun n txout hn => ?_, id⟩
      by_cases hspent : (env.owns txout && spendsIn [txin] h n)
      · have hboth := hspent
        simp only [Bool.and_eq_true, spendsIn, any_cons, any_nil, Bool.or_false,
          beq_iff_eq] at hboth
        rw [hspent, Bool.or_true]
        exact hall n txout hn hboth.1 hboth.2.1 hboth.2.2
      · rw [Bool.not_eq_true] at hspent
        rw [hspent, Bool.or_false]
    dsimp only
    cases hout : wtx.tx.vout[txin.prevout.n.toNat]? with
    | none =>
      refine ⟨fun _ h => h, fun h wtx₁ hw => hother h wtx₁ hw ?_⟩
      rintro n txout hn - rfl rfl
      rw [hs] at hw
      cases hw
      rw [hout] at hn
      cases hn
    | some txout₀ =>
      dsimp only
      split
      · next hmark =>
        simp only [Bool.and_eq_true, Bool.not_eq_true'] at hmark
        have hlt := (List.getElem?_eq_some_iff.mp hout).1
        have hflags : Flags env (fun n _ b => if n = txin.prevout.n.toNat then true else b) wtx
            (wtx.markSpent txin.prevout.n.toNat) :=
          CWalletTx.flags_setSpent hlt
        have hset := marks_insert hs hflags
        refine ⟨hset.absent, fun h wtx₁ hw => ?_⟩
        obtain ⟨wtx', hs', hf⟩ := hset.present h wtx₁ hw
        refine ⟨wtx', hs', hf.congr fun n txout hn b => ?_⟩
        by_cases hh : h = txin.prevout.hash
        · subst hh
          rw [hs] at hw
          cases hw
          by_cases hn' : n = txin.prevout.n.toNat
          · subst hn'
            rw [hout] at hn
            cases hn
            simp [spendsIn, hmark.2]
          · simp [spendsIn, hn', Ne.symm hn']
        · simp [spendsIn, hh, Ne.symm hh]
      · next hmark =>
        refine ⟨fun _ h => h, fun h wtx₁ hw => hother h wtx₁ hw ?_⟩
        rintro n txout hn howns rfl rfl
        rw [hs] at hw
        cases hw
        rw [hout] at hn
        cases hn
        simpa [howns] using hmark

theorem marks_updateSpent (env : WalletEnv) (vin : List CTxIn) : ∀ mapWallet : MapWallet,
    Marks env (fun h n txout b => b || (env.owns txout && spendsIn vin h n)) mapWallet
      (vin.foldl (updateSpentIn env) mapWallet) := by
  induction vin with
  | nil =>
    intro mapWallet
    exact (Marks.refl env mapWallet).congr fun h n txout b => by simp [spendsIn]
  | cons txin vin ih =>
    intro mapWallet
    refine ((marks_updateSpentIn mapWallet txin).trans (ih _)).congr fun h n txout b => ?_
    simp only [spendsIn, any_cons, any_nil, Bool.or_false]
    cases env.owns txout <;> simp [Bool.or_assoc]

/-- A flag after `WalletUpdateSpent`: set if the transaction spends the output, cleared if it is its
own and in a block. -/
def updatedFlag (env : WalletEnv) (tx : CTransaction) (fBlock : Bool) (h : Uint256) (n : Nat)
    (txout : CTxOut) (b : Bool) : Bool :=
  (b || (env.owns txout && spendsIn tx.vin h n)) &&
    !(fBlock && h == env.crypto.txHash tx && env.owns txout)

theorem marks_walletUpdateSpent {fBlock : Bool}
    (htx : ∀ wtx, mapWallet.lookup (env.crypto.txHash tx) = some wtx → wtx.tx = tx) :
    Marks env (updatedFlag env tx fBlock) mapWallet (mapWallet.walletUpdateSpent env tx fBlock) := by
  have hvin := marks_updateSpent env tx.vin mapWallet
  unfold walletUpdateSpent updatedFlag
  cases fBlock with
  | false => exact hvin.congr fun h n txout b => by simp
  | true =>
    rw [if_pos rfl]
    cases hs : mapWallet.lookup (env.crypto.txHash tx) with
    | none =>
      rw [hvin.absent _ hs]
      refine ⟨hvin.absent, fun h wtx hw => ?_⟩
      obtain ⟨wtx', hs', hf⟩ := hvin.present h wtx hw
      refine ⟨wtx', hs', hf.congr fun n txout _ b => ?_⟩
      have hne : h ≠ env.crypto.txHash tx := by
        rintro rfl
        rw [hs] at hw
        cases hw
      simp [hne]
    | some wtx =>
      obtain ⟨wtx', hs', hf⟩ := hvin.present _ wtx hs
      rw [hs']
      have hvout : wtx'.tx.vout = tx.vout := by rw [hf.tx, htx wtx hs]
      have hown := CWalletTx.flags_markOwnUnspent env wtx'
      rw [hvout] at hown
      refine (hvin.trans (marks_insert hs' hown)).congr fun h n txout b => ?_
      by_cases hh : h = env.crypto.txHash tx
      · simp [hh]
      · simp [hh]

theorem Marks.exists_of_some (h : Marks env f mapWallet mapWallet') {hash : Uint256}
    {wtx' : CWalletTx} (hs : mapWallet'.lookup hash = some wtx') :
    ∃ wtx, mapWallet.lookup hash = some wtx ∧ Flags env (f hash) wtx wtx' := by
  cases hw : mapWallet.lookup hash with
  | none =>
    rw [h.absent hash hw] at hs
    cases hs
  | some wtx =>
    obtain ⟨wtx'', hs'', hf⟩ := h.present hash wtx hw
    cases hs.symm.trans hs''
    exact ⟨wtx, rfl, hf⟩

/-- Flags do not matter to who sent a transaction. -/
theorem Marks.prevOut (h : Marks env f mapWallet mapWallet') (prevout : COutPoint) :
    mapWallet'.prevOut prevout = mapWallet.prevOut prevout := by
  unfold MapWallet.prevOut
  cases hs : mapWallet.lookup prevout.hash with
  | none => rw [h.absent _ hs]
  | some wtx =>
    obtain ⟨wtx', hs', hf⟩ := h.present _ wtx hs
    rw [hs']
    simp [hf.tx]

theorem isFromMe_congr
    (h : ∀ txin ∈ tx.vin, mapWallet'.prevOut txin.prevout = mapWallet.prevOut txin.prevout) :
    mapWallet'.isFromMe env tx = mapWallet.isFromMe env tx := by
  have hdebit : mapWallet'.getDebit env tx MINE_ALL = mapWallet.getDebit env tx MINE_ALL := by
    refine Runs.run_congr (fun nDebit txin htxin => ?_) 0
    have hin : mapWallet'.getDebitIn env txin MINE_ALL = mapWallet.getDebitIn env txin MINE_ALL := by
      unfold getDebitIn
      rw [h txin htxin]
    rw [hin]
  unfold isFromMe
  rw [hdebit]

end MapWallet

/-! ## Calls -/

namespace WalletState

open CWalletTx (Flags CacheOk)
open MapWallet (Marks)

def hashBlockOf {C : Crypto} : Option (TreeBlock C) → Uint256
  | none => 0
  | some p => C.blockHash p.block

/-- The outputs of the wallet that a delivered transaction spends are marked, and the available
credit is that of the others, or 0 if not mature. -/
structure SpentOk (env : WalletEnv) (s : WalletState) : Prop where
  flags : ∀ h wtx, s.mapWallet.lookup h = some wtx → ∀ n txout, wtx.tx.vout[n]? = some txout →
    env.owns txout = true → spends s.vDelivered h n = true → wtx.isSpent n = true
  credit : ∀ h wtx, s.mapWallet.lookup h = some wtx → ∀ m fUseCache r,
    wtx.getAvailableCredit env m fUseCache = some r → r.2 = 0 ∨
      r.2 = wtx.tx.vout.zipIdx.foldl (fun nCredit p =>
        if spends s.vDelivered h p.2 then nCredit
        else nCredit + env.spendableValue p.1) 0

/-- Transactions are known by their hashes, and none comes first after one that spends from it. -/
def Proper (env : WalletEnv) (s : WalletState) : WalletCall env.crypto → Prop
  | .deliver _ tx _ =>
    (∀ t ∈ s.vDelivered, env.crypto.txHash t = env.crypto.txHash tx → t = tx) ∧
    (tx ∉ s.vDelivered → ∀ t ∈ tx :: s.vDelivered, ∀ txin ∈ t.vin,
      txin.prevout.hash ≠ env.crypto.txHash tx)
  | .getAvailableCredit _ _ _ => True

instance {env : WalletEnv} {s : WalletState} : DecidablePred (Proper env s)
  | .deliver _ _ _ => inferInstanceAs (Decidable (_ ∧ (_ → _)))
  | .getAvailableCredit _ _ _ => .isTrue trivial

/-- A transaction of the wallet does not come with a block when one of its outputs is spent. -/
def Careful (env : WalletEnv) (s : WalletState) : WalletCall env.crypto → Prop
  | .deliver _ tx pblock =>
    (s.mapWallet.lookup (env.crypto.txHash tx)).isSome → hashBlockOf pblock ≠ 0 →
      ∀ n txout, tx.vout[n]? = some txout → env.owns txout = true →
        spends s.vDelivered (env.crypto.txHash tx) n = false
  | .getAvailableCredit _ _ _ => True

/-- Transactions are under their hashes and were delivered, a flag means that the output is spent,
and it does not change whether a delivered transaction is in the wallet. -/
structure Inv (env : WalletEnv) (s : WalletState) : Prop where
  hash : ∀ h wtx, s.mapWallet.lookup h = some wtx → env.crypto.txHash wtx.tx = h ∧
    wtx.tx ∈ s.vDelivered
  spent : ∀ h wtx, s.mapWallet.lookup h = some wtx → ∀ n txout, wtx.tx.vout[n]? = some txout →
    wtx.isSpent n = true → spends s.vDelivered h n = true
  cache : ∀ h wtx, s.mapWallet.lookup h = some wtx → CacheOk env wtx
  settled : ∀ t ∈ s.vDelivered, s.mapWallet.lookup (env.crypto.txHash t) = none →
    env.isMineTx t = false ∧ s.mapWallet.isFromMe env t = some false

theorem inv_init (env : WalletEnv) : Inv env ⟨∅, []⟩ := ⟨by nofun, by nofun, by nofun, by nofun⟩

/-- Before the flags are updated: the transaction does not come into the wallet, or is there with
its flags. -/
inductive Added (env : WalletEnv) (mapWallet : MapWallet) (tx : CTransaction) (hashBlock : Uint256) :
    MapWallet → Bool → Prop
  | notInvolved (hnone : mapWallet.lookup (env.crypto.txHash tx) = none)
      (hmine : env.isMineTx tx = false) (hfrom : mapWallet.isFromMe env tx = some false) :
      Added env mapWallet tx hashBlock mapWallet false
  | new {wtx : CWalletTx} (hnone : mapWallet.lookup (env.crypto.txHash tx) = none)
      (hinvolved : ¬ (env.isMineTx tx = false ∧ mapWallet.isFromMe env tx = some false))
      (htx : wtx.tx = tx) (hspent : ∀ n, wtx.isSpent n = false)
      (hcache : wtx.nAvailableCreditCached = none) :
      Added env mapWallet tx hashBlock (mapWallet.insert (env.crypto.txHash tx) wtx)
        (hashBlock ≠ 0)
  | again {wtx wtx' : CWalletTx} (hsome : mapWallet.lookup (env.crypto.txHash tx) = some wtx)
      (htx : wtx'.tx = wtx.tx) (hspent : ∀ n, wtx'.isSpent n = wtx.isSpent n)
      (hcache : wtx'.nAvailableCreditCached = none) :
      Added env mapWallet tx hashBlock (mapWallet.insert (env.crypto.txHash tx) wtx')
        (hashBlock ≠ 0)

theorem setMerkleBranch_some (view : ChainView) (merkleTx : CMerkleTx) (p : TreeBlock C) :
    (merkleTx.setMerkleBranch C view.m view.db view.readBlock (some p)).1.tx = merkleTx.tx ∧
    (merkleTx.setMerkleBranch C view.m view.db view.readBlock (some p)).1.hashBlock =
      C.blockHash p.block := by
  unfold CMerkleTx.setMerkleBranch
  rw [if_neg (by decide)]
  simp only [blockOfTx, Option.some_or]
  split <;> exact ⟨rfl, rfl⟩

/-- A transaction as it is delivered. -/
theorem ofBlock_spec (view : ChainView) (tx : CTransaction) (pblock : Option (TreeBlock C)) :
    (CWalletTx.ofBlock view tx pblock).tx = tx ∧
      (CWalletTx.ofBlock view tx pblock).hashBlock = hashBlockOf pblock ∧
      (CWalletTx.ofBlock view tx pblock).vfSpent = [] := by
  cases pblock with
  | none => exact ⟨rfl, rfl, rfl⟩
  | some p =>
    obtain ⟨htx, hhash⟩ := setMerkleBranch_some view (CWalletTx.new tx).toCMerkleTx p
    exact ⟨htx, hhash, rfl⟩

theorem merge_spec (wtx : CWalletTx) {wtxIn : CWalletTx} (hspent : wtxIn.vfSpent = []) :
    (wtx.markDirty.merge wtxIn).tx = wtx.tx ∧ (wtx.markDirty.merge wtxIn).vfSpent = wtx.vfSpent ∧
      (wtx.markDirty.merge wtxIn).nAvailableCreditCached = none := by
  unfold CWalletTx.merge
  rw [hspent]
  split <;> split <;> split <;> exact ⟨rfl, rfl, rfl⟩

variable {s s' : WalletState} {call : WalletCall env.crypto} {fBlock : Bool} {hashBlock : Uint256}
  {mapWallet₁ : MapWallet}

/-- A new entry, or the old one with the block it was found in. -/
theorem added_addToWallet (wtxIn : CWalletTx) (hspent : wtxIn.vfSpent = [])
    (hknown : ∀ wtx, mapWallet.lookup (env.crypto.txHash wtxIn.tx) = some wtx → wtx.tx = wtxIn.tx)
    (hinvolved : mapWallet.lookup (env.crypto.txHash wtxIn.tx) = none → ¬ (env.isMineTx wtxIn.tx =
      false ∧ mapWallet.isFromMe env wtxIn.tx = some false)) :
    ∃ mapWallet₁ fBlock, Added env mapWallet wtxIn.tx wtxIn.hashBlock mapWallet₁ fBlock ∧
      mapWallet.addToWallet env wtxIn = mapWallet₁.walletUpdateSpent env wtxIn.tx fBlock := by
  unfold MapWallet.addToWallet
  cases hs : mapWallet.lookup (env.crypto.txHash wtxIn.tx) with
  | none =>
    have hinserted : mapWallet.inserted env wtxIn = wtxIn.markDirty := by
      simp only [MapWallet.inserted, hs]
    have hflags : ∀ n, wtxIn.markDirty.isSpent n = false := by
      intro n
      show wtxIn.vfSpent.getD n false = false
      rw [hspent]
      rfl
    rw [hinserted]
    exact ⟨_, _, .new hs (hinvolved hs) (show wtxIn.markDirty.tx = wtxIn.tx from rfl) hflags rfl, rfl⟩
  | some wtx =>
    have hinserted : mapWallet.inserted env wtxIn = wtx.markDirty.merge wtxIn := by
      simp only [MapWallet.inserted, hs]
    obtain ⟨htx, hflags, hnone⟩ := merge_spec wtx hspent
    rw [hinserted, htx, hknown wtx hs]
    refine ⟨_, _, .again hs htx (fun n => ?_) hnone, rfl⟩
    unfold CWalletTx.isSpent
    rw [hflags]

theorem deliver_cases {view : ChainView} {pblock : Option (TreeBlock env.crypto)}
    (hknown : ∀ wtx, s.mapWallet.lookup (env.crypto.txHash tx) = some wtx → wtx.tx = tx)
    (hstep : s.step env (.deliver view tx pblock) = some s') :
    ∃ mapWallet₁ fBlock, Added env s.mapWallet tx (hashBlockOf pblock) mapWallet₁ fBlock ∧
      s' = ⟨mapWallet₁.walletUpdateSpent env tx fBlock, tx :: s.vDelivered⟩ := by
  obtain ⟨mapWallet', hadd, hs'⟩ := Option.bind_eq_some_iff.mp hstep
  cases hs'
  unfold MapWallet.addToWalletIfInvolvingMe at hadd
  rw [if_neg (by simp)] at hadd
  obtain ⟨fInvolved, hinvolved, hadd⟩ := Option.bind_eq_some_iff.mp hadd
  obtain rfl := Option.some.inj hadd
  unfold MapWallet.isInvolved at hinvolved
  cases fInvolved with
  | false =>
    split at hinvolved
    · cases hinvolved
    · next hnot =>
      simp only [Bool.or_eq_true, not_or, Bool.not_eq_true, Option.isSome_eq_false_iff,
        Option.isNone_iff_eq_none] at hnot
      exact ⟨_, _, .notInvolved hnot.1 hnot.2 hinvolved, rfl⟩
  | true =>
    have hnot : s.mapWallet.lookup (env.crypto.txHash tx) = none →
        ¬ (env.isMineTx tx = false ∧ s.mapWallet.isFromMe env tx = some false) := by
      rintro hnone ⟨hmine, hfrom⟩
      simp [hnone, hmine, hfrom] at hinvolved
    have hnew := ofBlock_spec view tx pblock
    generalize CWalletTx.ofBlock view tx pblock = wtxIn at hnew
    obtain ⟨rfl, hhash, hspent⟩ := hnew
    obtain ⟨mapWallet₁, fBlock, hadded, heq⟩ := added_addToWallet wtxIn hspent hknown hnot
    rw [hhash] at hadded
    exact ⟨mapWallet₁, fBlock, hadded, congrArg (WalletState.mk · _) heq⟩

/-! ## The invariant -/

section

variable {h : Uint256} (hadded : Added env mapWallet tx hashBlock mapWallet₁ fBlock)
include hadded

theorem Added.cases {wtx₁ : CWalletTx} (hs : mapWallet₁.lookup h = some wtx₁) :
    (∃ wtx, mapWallet.lookup h = some wtx ∧ Flags env (fun _ _ b => b) wtx wtx₁) ∨
    (h = env.crypto.txHash tx ∧ mapWallet.lookup h = none ∧ wtx₁.tx = tx ∧
      (∀ n, wtx₁.isSpent n = false) ∧ CacheOk env wtx₁) := by
  have hnocache : ∀ {wtx : CWalletTx}, wtx.nAvailableCreditCached = none → CacheOk env wtx :=
    fun hnone nCredit hsome => by
      rw [hnone] at hsome
      cases hsome
  cases hadded with
  | notInvolved => exact .inl ⟨wtx₁, hs, Flags.refl env wtx₁⟩
  | new hnone hinvolved htx hspent hcache =>
    rw [AssocMap.lookup_insert_ite] at hs
    split at hs
    · next heq =>
      cases hs
      exact .inr ⟨heq, heq ▸ hnone, htx, hspent, hnocache hcache⟩
    · exact .inl ⟨wtx₁, hs, Flags.refl env wtx₁⟩
  | again hsome htx hspent hcache =>
    rw [AssocMap.lookup_insert_ite] at hs
    split at hs
    · next heq =>
      cases hs
      exact .inl ⟨_, heq ▸ hsome, htx, fun n txout _ => hspent n, fun _ => hnocache hcache⟩
    · exact .inl ⟨wtx₁, hs, Flags.refl env wtx₁⟩

theorem Added.lookup_eq_none (hs : mapWallet₁.lookup h = none) : mapWallet.lookup h = none := by
  cases hadded with
  | notInvolved => exact hs
  | new =>
    rw [AssocMap.lookup_insert_ite] at hs
    split at hs
    · cases hs
    · exact hs
  | again =>
    rw [AssocMap.lookup_insert_ite] at hs
    split at hs
    · cases hs
    · exact hs

end

/-- The invariant is kept when flags change, if they are set for spent outputs only. -/
theorem Inv.of_marks {vDelivered : List CTransaction} {mapWallet' : MapWallet}
    {f : Uint256 → Nat → CTxOut → Bool → Bool} (h : Inv env ⟨mapWallet, vDelivered⟩)
    (hmarks : Marks env f mapWallet mapWallet')
    (hf : ∀ hash n txout b, f hash n txout b → b ∨ spends vDelivered hash n) :
    Inv env ⟨mapWallet', vDelivered⟩ := by
  refine ⟨fun hash wtx' hs' => ?_, fun hash wtx' hs' n txout hn hspent => ?_,
    fun hash wtx' hs' => ?_, fun t ht hnone' => ?_⟩
  · obtain ⟨wtx, hs, hflags⟩ := hmarks.exists_of_some hs'
    rw [hflags.tx]
    exact h.hash hash wtx hs
  · obtain ⟨wtx, hs, hflags⟩ := hmarks.exists_of_some hs'
    rw [hflags.tx] at hn
    rw [hflags.isSpent n txout hn] at hspent
    exact (hf hash n txout _ hspent).elim (h.spent hash wtx hs n txout hn) id
  · obtain ⟨wtx, hs, hflags⟩ := hmarks.exists_of_some hs'
    exact hflags.cache (h.cache hash wtx hs)
  · have hfrom : mapWallet'.isFromMe env t = mapWallet.isFromMe env t :=
      MapWallet.isFromMe_congr fun txin _ => hmarks.prevOut txin.prevout
    show env.isMineTx t = false ∧ mapWallet'.isFromMe env t = some false
    rw [hfrom]
    refine h.settled t ht (Option.eq_none_iff_forall_ne_some.mpr fun wtx hs => ?_)
    obtain ⟨wtx', hs', -⟩ := hmarks.present _ wtx hs
    cases hnone'.symm.trans hs'

section Deliver

variable {view : ChainView} {pblock : Option (TreeBlock env.crypto)} (h : Inv env s)
  (hproper : Proper env s (.deliver view tx pblock))

include h hproper

theorem Inv.known : ∀ wtx, s.mapWallet.lookup (env.crypto.txHash tx) = some wtx → wtx.tx = tx := by
  intro wtx hs
  obtain ⟨hhash, hmem⟩ := h.hash _ wtx hs
  exact hproper.1 wtx.tx hmem hhash

theorem Inv.new_not_spent (hnone : s.mapWallet.lookup (env.crypto.txHash tx) = none)
    (hinvolved : ¬ (env.isMineTx tx = false ∧ s.mapWallet.isFromMe env tx = some false)) :
    ∀ t ∈ tx :: s.vDelivered, ∀ txin ∈ t.vin, txin.prevout.hash ≠ env.crypto.txHash tx :=
  hproper.2 fun hmem => hinvolved (h.settled tx hmem hnone)

section

variable (hadded : Added env s.mapWallet tx hashBlock mapWallet₁ fBlock)
include hadded

theorem Inv.isFromMe_added {t : CTransaction} (ht : t ∈ s.vDelivered) :
    mapWallet₁.isFromMe env t = s.mapWallet.isFromMe env t := by
  refine MapWallet.isFromMe_congr fun txin htxin => ?_
  unfold MapWallet.prevOut
  cases hadded with
  | notInvolved => rfl
  | new hnone hinvolved htx hspent hcache =>
    have hne := h.new_not_spent hproper hnone hinvolved t (mem_cons_of_mem _ ht) txin htxin
    rw [AssocMap.lookup_insert_ite, if_neg hne]
  | again hsome htx hspent hcache =>
    rw [AssocMap.lookup_insert_ite]
    split
    · next heq =>
      rw [heq, hsome]
      simp [htx]
    · rfl

theorem Inv.marks : Marks env (MapWallet.updatedFlag env tx fBlock) mapWallet₁
      (mapWallet₁.walletUpdateSpent env tx fBlock) := by
  refine MapWallet.marks_walletUpdateSpent fun wtx₁ hs₁ => ?_
  rcases hadded.cases hs₁ with ⟨wtx, hs, hf⟩ | ⟨-, -, htx, -⟩
  · rw [hf.tx]
    exact h.known hproper wtx hs
  · exact htx

/-- Before the flags are updated. -/
theorem Inv.added : Inv env ⟨mapWallet₁, tx :: s.vDelivered⟩ := by
  refine ⟨fun hash wtx₁ hs₁ => ?_, fun hash wtx₁ hs₁ n txout hn hspent => ?_,
    fun hash wtx₁ hs₁ => ?_, fun t ht hnone₁ => ?_⟩
  · rcases hadded.cases hs₁ with ⟨wtx, hs, hf⟩ | ⟨rfl, -, htx, -⟩
    · rw [hf.tx]
      exact ⟨(h.hash hash wtx hs).1, mem_cons_of_mem _ (h.hash hash wtx hs).2⟩
    · rw [htx]
      exact ⟨rfl, mem_cons_self⟩
  · rw [spends_cons, Bool.or_eq_true]
    rcases hadded.cases hs₁ with ⟨wtx, hs, hf⟩ | ⟨-, -, -, hno, -⟩
    · rw [hf.tx] at hn
      rw [hf.isSpent n txout hn] at hspent
      exact .inr (h.spent hash wtx hs n txout hn hspent)
    · rw [hno n] at hspent
      cases hspent
  · rcases hadded.cases hs₁ with ⟨wtx, hs, hf⟩ | ⟨-, -, -, -, hcache⟩
    · exact hf.cache (h.cache hash wtx hs)
    · exact hcache
  · rcases mem_cons.mp ht with rfl | ht
    · cases hadded with
      | notInvolved _ hmine hfromMe => exact ⟨hmine, hfromMe⟩
      | _ =>
        rw [AssocMap.lookup_insert_ite, if_pos rfl] at hnone₁
        cases hnone₁
    · rw [h.isFromMe_added hproper hadded ht]
      exact h.settled t ht (hadded.lookup_eq_none hnone₁)

end

theorem Inv.deliver (hstep : s.step env (.deliver view tx pblock) = some s') : Inv env s' := by
  obtain ⟨mapWallet₁, fBlock, hadded, rfl⟩ := deliver_cases (h.known hproper) hstep
  refine (h.added hproper hadded).of_marks (h.marks hproper hadded) fun hash n txout b hb => ?_
  rw [MapWallet.updatedFlag, Bool.and_eq_true, Bool.or_eq_true, Bool.and_eq_true] at hb
  refine hb.1.imp id fun hnew => ?_
  rw [spends_cons, hnew.2, Bool.true_or]

/-- A spend delivered before is marked already; the one delivered now is marked by
`WalletUpdateSpent`. -/
theorem Inv.flags_deliver (hok : SpentOk env s)
    (hstep : s.step env (.deliver view tx pblock) = some s')
    (hcareful : Careful env s (.deliver view tx pblock)) :
    ∀ hash wtx', s'.mapWallet.lookup hash = some wtx' → ∀ n txout, wtx'.tx.vout[n]? = some txout →
      env.owns txout → spends s'.vDelivered hash n → wtx'.isSpent n := by
  obtain ⟨mapWallet₁, fBlock, hadded, rfl⟩ := deliver_cases (h.known hproper) hstep
  intro hash wtx' hs' n txout hn howns hspends
  obtain ⟨wtx₁, hs₁, hf'⟩ := (h.marks hproper hadded).exists_of_some hs'
  rw [hf'.tx] at hn
  rw [hf'.isSpent n txout hn, MapWallet.updatedFlag, howns, Bool.and_true, Bool.and_eq_true]
  rw [spends_cons, Bool.or_eq_true] at hspends
  -- an output of the delivered transaction is not spent if the flags are cleared
  have hown : ¬ (fBlock ∧ hash = env.crypto.txHash tx) := by
    rintro ⟨hblock, rfl⟩
    have hspends' : spends (tx :: s.vDelivered) (env.crypto.txHash tx) n := by
      rw [spends_cons, Bool.or_eq_true]
      exact hspends
    obtain ⟨t, ht, txin, htxin, heq⟩ := exists_of_spends hspends'
    cases hadded with
    | notInvolved => cases hblock
    | new hnone hinvolved => exact h.new_not_spent hproper hnone hinvolved t ht txin htxin heq
    | @again wtx _ hsome htx =>
      have htx₁ : wtx₁.tx = tx := by
        rw [AssocMap.lookup_insert_ite, if_pos rfl] at hs₁
        rw [← Option.some.inj hs₁, htx]
        exact h.known hproper wtx hsome
      rw [htx₁] at hn
      have hnot := hcareful (by rw [hsome]; rfl) (of_decide_eq_true hblock) n txout hn howns
      rw [hnot] at hspends
      -- it would have to spend from itself, and then it did so when it came before
      have hmem : tx ∈ s.vDelivered := by
        have hwtx := (h.hash _ wtx hsome).2
        rwa [h.known hproper wtx hsome] at hwtx
      have hself : spends s.vDelivered (env.crypto.txHash tx) n := by
        exact any_eq_true.mpr ⟨tx, hmem, hspends.resolve_right (by simp)⟩
      rw [hnot] at hself
      cases hself
  refine ⟨?_, by
    cases fBlock with
    | false => simp
    | true => simpa using hown⟩
  rw [Bool.or_eq_true]
  rcases hspends with hnew | hold
  · exact .inr hnew
  · rcases hadded.cases hs₁ with ⟨wtx, hs, hf⟩ | ⟨rfl, hnone, -⟩
    · rw [hf.tx] at hn
      rw [hf.isSpent n txout hn]
      exact .inl (hok.flags hash wtx hs n txout hn howns hold)
    · obtain ⟨t, ht, txin, htxin, heq⟩ := exists_of_spends hold
      cases hadded with
      | notInvolved =>
        rw [hnone] at hs₁
        cases hs₁
      | new hnone hinvolved =>
        exact absurd heq
          (h.new_not_spent hproper hnone hinvolved t (mem_cons_of_mem _ ht) txin htxin)
      | again hsome =>
        rw [hnone] at hsome
        cases hsome

/-- If a transaction of the wallet comes with a block, its outputs are marked as not spent. -/
theorem Inv.careful_of_flags (hstep : s.step env (.deliver view tx pblock) = some s')
    (hok : SpentOk env s') : Careful env s (.deliver view tx pblock) := by
  obtain ⟨mapWallet₁, fBlock, hadded, rfl⟩ := deliver_cases (h.known hproper) hstep
  intro hsome hblock n txout hn howns
  rw [← Bool.not_eq_true]
  intro hspends
  have hmarks := h.marks hproper hadded
  cases hadded with
  | notInvolved hnone =>
    rw [hnone] at hsome
    cases hsome
  | new hnone =>
    rw [hnone] at hsome
    cases hsome
  | @again wtx wtx₁ hsome htx =>
    have htx₁ : wtx₁.tx = tx := htx.trans (h.known hproper wtx hsome)
    obtain ⟨wtx', hs', hf'⟩ := hmarks.present (env.crypto.txHash tx) wtx₁
      (by rw [AssocMap.lookup_insert_ite, if_pos rfl])
    have hn₁ : wtx₁.tx.vout[n]? = some txout := by rwa [htx₁]
    have hmarked := hok.flags _ wtx' hs' n txout (by rw [hf'.tx]; exact hn₁) howns
      (by rw [spends_cons, hspends, Bool.or_true])
    rw [hf'.isSpent n txout hn₁, MapWallet.updatedFlag] at hmarked
    simp only [howns, decide_eq_true hblock] at hmarked
    simp at hmarked

end Deliver

theorem Inv.credit (h : Inv env s)
    (hflags : ∀ hash wtx, s.mapWallet.lookup hash = some wtx → ∀ n txout, wtx.tx.vout[n]? = some
      txout → env.owns txout → spends s.vDelivered hash n → wtx.isSpent n) :
    SpentOk env s := by
  refine ⟨hflags, fun hash wtx hs m fUseCache r hr => ?_⟩
  obtain ⟨-, hzero | hadd⟩ := CWalletTx.getAvailableCredit_spec (h.cache hash wtx hs) hr
  · exact .inl hzero
  · refine .inr ((CWalletTx.addCredits_eq_foldl hadd).trans (foldl_ext _ _ _ ?_))
    intro nCredit p hp
    have hn := CWalletTx.lt_of_mem_zipIdx hp
    cases howns : env.owns p.1 with
    | true =>
      have hiff : wtx.isSpent p.2 = spends s.vDelivered hash p.2 := by
        rw [Bool.eq_iff_iff]
        exact ⟨h.spent hash wtx hs p.2 p.1 hn, hflags hash wtx hs p.2 p.1 hn howns⟩
      rw [hiff]
    | false =>
      -- it counts for nothing
      have hno : env.isMine p.1 = .MINE_NO := by simpa [WalletEnv.owns] using howns
      have hzero : env.spendableValue p.1 = 0 := by
        simp [WalletEnv.spendableValue, hno, IsMineType.passes]
      rw [hzero, Int64.add_zero, ite_self, ite_self]

section

variable {fUseCache : Bool} {hash : Uint256}
  (hstep : s.step env (.getAvailableCredit m hash fUseCache) = some s')
include hstep

theorem step_getAvailableCredit : s' = s ∨ ∃ wtx r, s.mapWallet.lookup hash = some wtx ∧
      wtx.getAvailableCredit env m fUseCache = some r ∧
      s' = { s with mapWallet := s.mapWallet.insert hash r.1 } := by
  unfold WalletState.step at hstep
  cases hs : s.mapWallet.lookup hash with
  | none =>
    simp only [hs, Option.some.injEq] at hstep
    exact .inl hstep.symm
  | some wtx =>
    simp only [hs] at hstep
    obtain ⟨r, hr, hs'⟩ := Option.bind_eq_some_iff.mp hstep
    exact .inr ⟨wtx, r, rfl, hr, (Option.some.inj hs').symm⟩

theorem Inv.marks_getAvailableCredit (h : Inv env s) :
    s'.vDelivered = s.vDelivered ∧ Marks env (fun _ _ _ b => b) s.mapWallet s'.mapWallet := by
  rcases step_getAvailableCredit hstep with rfl | ⟨wtx, r, hs, hr, rfl⟩
  · exact ⟨rfl, Marks.refl env _⟩
  · have hflags := (CWalletTx.getAvailableCredit_spec (h.cache hash wtx hs) hr).1
    exact ⟨rfl, (MapWallet.marks_insert hs hflags).congr fun _ _ _ b => by simp⟩

theorem Inv.getAvailableCredit (h : Inv env s) : Inv env s' ∧ (SpentOk env s → SpentOk env s') := by
  obtain ⟨hdelivered, hmarks⟩ := h.marks_getAvailableCredit hstep
  have hinv : Inv env s' := by
    have hkept := h.of_marks hmarks fun _ _ _ _ => .inl
    rwa [← hdelivered] at hkept
  refine ⟨hinv, fun hok => hinv.credit ?_⟩
  intro h₁ wtx' hs' n txout hn howns hspends
  obtain ⟨wtx, hs, hf⟩ := hmarks.exists_of_some hs'
  rw [hf.tx] at hn
  rw [hf.isSpent n txout hn]
  rw [hdelivered] at hspends
  exact hok.flags h₁ wtx hs n txout hn howns hspends

end

/-! ## Sequences of calls -/

/-- The step lemma. -/
theorem Inv.step (h : Inv env s) (hproper : Proper env s call) (hstep : s.step env call = some s') :
    Inv env s' := by
  cases call with
  | deliver view tx pblock => exact h.deliver hproper hstep
  | getAvailableCredit m hash fUseCache => exact (h.getAvailableCredit hstep).1

theorem Inv.spentOk_step_iff (h : Inv env s) (hproper : Proper env s call) (hok : SpentOk env s)
    (hstep : s.step env call = some s') : SpentOk env s' ↔ Careful env s call := by
  cases call with
  | deliver view tx pblock =>
    refine ⟨h.careful_of_flags hproper hstep, fun hcareful => ?_⟩
    exact (h.deliver hproper hstep).credit (h.flags_deliver hproper hok hstep hcareful)
  | getAvailableCredit m hash fUseCache =>
    exact ⟨fun _ => trivial, fun _ => (h.getAvailableCredit hstep).2 hok⟩

theorem spentOk_init (env : WalletEnv) : SpentOk env ⟨∅, []⟩ := ⟨by nofun, by nofun⟩

/-- Along calls in which no transaction comes after one that spends from it, the flags and the
available credit are right exactly if no transaction of the wallet comes with a block after one that
spends one of its outputs. -/
theorem walletSpent_iff {calls : List (WalletCall env.crypto)} {sEnd : WalletState}
    (hend : Runs.run (step env) ⟨∅, []⟩ calls = some sEnd)
    (hproper : ∀ pre call, pre ++ [call] <+: calls → ∀ s,
      Runs.run (step env) ⟨∅, []⟩ pre = some s → Proper env s call) :
    (∀ pre, pre <+: calls → ∀ s, Runs.run (step env) ⟨∅, []⟩ pre = some s → SpentOk env s) ↔
      ∀ pre call, pre ++ [call] <+: calls → ∀ s,
        Runs.run (step env) ⟨∅, []⟩ pre = some s → Careful env s call :=
  Runs.forall_prefix_iff_of (fun _ _ _ h hp hstep => h.step hp hstep) (inv_init env)
    (fun _ _ _ h hp hok hstep => h.spentOk_step_iff hp hok hstep) (spentOk_init env) hend hproper

/-! ## A flag that is lost -/

def sampleEnv : WalletEnv where
  crypto := { Crypto.sample with scryptBlockHash := fun _ => 1 }
  fTestNet := true
  isMineScript := fun script => if script = [1] then .MINE_SPENDABLE else .MINE_NO
  nMinimumInputValue := 1

def payment : CTransaction := ⟨1, 0, [⟨⟨7, 0⟩, [], 0⟩], [⟨100, [1]⟩], 0⟩

def spending : CTransaction :=
  ⟨1, 0, [⟨⟨sampleEnv.crypto.txHash payment, 0⟩, [], 0⟩], [⟨100, [2]⟩], 0⟩

def sampleView : ChainView := ⟨⟨fun _ => none, fun _ => none, []⟩, ∅, fun _ _ => none⟩

def sampleBlock : TreeBlock sampleEnv.crypto :=
  .ofBlock _ ⟨6, 0, 0, 0, 0, 0, [payment], []⟩

def lostCalls : List (WalletCall sampleEnv.crypto) :=
  [.deliver sampleView payment none, .deliver sampleView spending none,
    .deliver sampleView payment (some sampleBlock)]

/-- The output is spent, has no flag, and is counted as available. -/
theorem walletSpent_lost : ∃ s, Runs.run (step sampleEnv) ⟨∅, []⟩ lostCalls = some s ∧
    ∃ wtx, s.mapWallet.lookup (sampleEnv.crypto.txHash payment) = some wtx ∧
      spends s.vDelivered (sampleEnv.crypto.txHash payment) 0 = true ∧ wtx.isSpent 0 = false ∧
      ∃ r, wtx.getAvailableCredit sampleEnv sampleView.m true = some r ∧ r.2 = 100 := by
  decide +kernel

theorem lostCalls_proper : ∀ pre call, pre ++ [call] <+: lostCalls → ∀ s,
    Runs.run (step sampleEnv) ⟨∅, []⟩ pre = some s → Proper sampleEnv s call :=
  Runs.forall_prefix_of_getElem (by decide +kernel)

/-- A run that loses a spent mark, decided on both sides. -/
theorem walletSpent_iff_sample : ∃ sEnd, Runs.run (step sampleEnv) ⟨∅, []⟩ lostCalls = some sEnd ∧
    ((∀ pre, pre <+: lostCalls → ∀ s,
        Runs.run (step sampleEnv) ⟨∅, []⟩ pre = some s → SpentOk sampleEnv s) ↔
      ∀ pre call, pre ++ [call] <+: lostCalls → ∀ s,
        Runs.run (step sampleEnv) ⟨∅, []⟩ pre = some s → Careful sampleEnv s call) := by
  have hrun : (Runs.run (step sampleEnv) ⟨∅, []⟩ lostCalls).isSome := by decide +kernel
  obtain ⟨sEnd, hend⟩ := Option.isSome_iff_exists.mp hrun
  exact ⟨sEnd, hend, walletSpent_iff hend lostCalls_proper⟩

end WalletState

end NovaCoin
