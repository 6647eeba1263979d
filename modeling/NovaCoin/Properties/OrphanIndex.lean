import NovaCoin.Infra.Runs
import NovaCoin.OrphanTx

/-!
# The index of the orphan transactions

`mapOrphanTransactionsByPrev` gives, under every hash, the orphans that spend an output of it
(`Indexed`), and there are never more than `MAX_ORPHAN_TRANSACTIONS` of them. It is not exact: the
search for the orphans of an accepted transaction adds a key with an empty set when there are none
(`Dangling`), and nothing removes it.
-/

namespace NovaCoin

open List Option

open AssocMap (lookup_insert_ite lookup_erase_ite mem_of_lookup exists_lookup)

variable {crypto : Crypto} {orphans : OrphanTxs}

namespace OrphanTxs

/-- Every orphan is under its hash, and under the hashes of the transactions it spends from. -/
structure Indexed (crypto : Crypto) (orphans : OrphanTxs) : Prop where
  keyed : ∀ hash tx, orphans.mapOrphanTransactions.lookup hash = some tx → crypto.txHash tx = hash
  mem_waiting : ∀ hashPrev hash, hash ∈ orphans.waiting hashPrev ↔
    ∃ tx, orphans.mapOrphanTransactions.lookup hash = some tx ∧ tx.spendsFrom hashPrev = true

/-- A key with an empty set. -/
def Dangling (orphans : OrphanTxs) (hashPrev : Uint256) : Prop :=
  orphans.mapOrphanTransactionsByPrev.lookup hashPrev = some []

/-- There is a key exactly if an orphan spends from it, and the set under it has exactly those. -/
structure Exact (orphans : OrphanTxs) : Prop where
  mem_keys : ∀ hashPrev, hashPrev ∈ orphans.mapOrphanTransactionsByPrev ↔
    ∃ hash tx, orphans.mapOrphanTransactions.lookup hash = some tx ∧ tx.spendsFrom hashPrev = true
  set : ∀ hashPrev s, orphans.mapOrphanTransactionsByPrev.lookup hashPrev = some s →
    s ≠ [] ∧ ∀ hash, hash ∈ s ↔
      ∃ tx, orphans.mapOrphanTransactions.lookup hash = some tx ∧ tx.spendsFrom hashPrev = true

theorem Indexed.exact_iff (h : orphans.Indexed crypto) :
    orphans.Exact ↔ ∀ hashPrev, ¬ orphans.Dangling hashPrev := by
  constructor
  · intro hexact hashPrev hdangling
    exact (hexact.set hashPrev [] hdangling).1 rfl
  · intro hnone
    have hset : ∀ hashPrev s, orphans.mapOrphanTransactionsByPrev.lookup hashPrev = some s →
        s ≠ [] ∧ ∀ hash, hash ∈ s ↔ ∃ tx, orphans.mapOrphanTransactions.lookup hash = some tx ∧
          tx.spendsFrom hashPrev := by
      intro hashPrev s hs
      refine ⟨?_, fun hash => ?_⟩
      · rintro rfl
        exact hnone hashPrev hs
      · rw [← h.mem_waiting, waiting, hs, getD_some]
    refine ⟨fun hashPrev => ?_, hset⟩
    constructor
    · intro hmem
      obtain ⟨s, hs⟩ := exists_lookup hmem
      obtain ⟨hne, hiff⟩ := hset hashPrev s hs
      obtain ⟨hash, hhash⟩ := exists_mem_of_ne_nil s hne
      exact ⟨hash, (hiff hash).mp hhash⟩
    · rintro ⟨hash, horphan⟩
      have hwaiting := (h.mem_waiting hashPrev hash).mpr horphan
      by_contra hmem
      rw [waiting, AList.lookup_eq_none.mpr hmem] at hwaiting
      cases hwaiting

variable {hashPrev hash h p : Uint256} {tx : CTransaction}

/-- Nothing spends from a key with an empty set. -/
theorem Indexed.not_spendsFrom (h : orphans.Indexed crypto) (hdangling : orphans.Dangling hashPrev)
    (htx : orphans.mapOrphanTransactions.lookup hash = some tx) :
    tx.spendsFrom hashPrev = false := by
  by_contra hspends
  have hwaiting := (h.mem_waiting hashPrev hash).mpr ⟨tx, htx, by simpa using hspends⟩
  rw [waiting, hdangling] at hwaiting
  cases hwaiting

/-! ## The loops over the inputs -/

theorem mem_insertHash {s : List Uint256} : h ∈ insertHash hash s ↔ h = hash ∨ h ∈ s := by
  rw [insertHash]
  split
  · next hmem =>
    constructor
    · exact .inr
    · rintro (rfl | hs)
      · exact hmem
      · exact hs
  · exact mem_orderedInsert _

theorem insertHash_insertHash (s : List Uint256) :
    insertHash hash (insertHash hash s) = insertHash hash s :=
  if_pos (mem_insertHash.mpr (.inl rfl))

variable {vin : List CTxIn} {byPrev : AList fun _ : Uint256 => List Uint256} {P : OrphanTxs → Prop}
  {rand : Nat → Uint256} {nMaxOrphans : Nat}

theorem lookup_addToPrevs : (addToPrevs hash byPrev vin).lookup p =
    if vin.any fun txin => txin.prevout.hash == p then
      some (insertHash hash ((byPrev.lookup p).getD []))
    else byPrev.lookup p := by
  induction vin generalizing byPrev with
  | nil => simp [addToPrevs]
  | cons txin vin ih =>
    unfold addToPrevs at ih ⊢
    rw [foldl_cons, ih, lookup_insert_ite, any_cons]
    by_cases hp : p = txin.prevout.hash
    · subst hp
      simp [insertHash_insertHash]
    · simp [hp, Ne.symm hp]

theorem mem_addToPrevs : h ∈ ((addToPrevs hash byPrev vin).lookup p).getD [] ↔
    h ∈ (byPrev.lookup p).getD [] ∨ (h = hash ∧ (vin.any fun txin => txin.prevout.hash == p)) := by
  rw [lookup_addToPrevs]
  split
  · next hany =>
    rw [getD_some, mem_insertHash]
    tauto
  · next hany => simp [hany]

theorem dangling_of_addToPrevs (h : (addToPrevs hash byPrev vin).lookup p = some []) :
    byPrev.lookup p = some [] := by
  rw [lookup_addToPrevs] at h
  split at h
  · exact absurd (some.inj h) (ne_nil_of_mem (mem_insertHash.mpr (.inl rfl)))
  · exact h

theorem getD_filter_isEmpty (s : List Uint256) : ((some s).filter (!·.isEmpty)).getD [] = s := by
  cases s <;> rfl

theorem lookup_erase_or_insert (a : Uint256) (s : List Uint256) :
    (if s.isEmpty then byPrev.erase a else byPrev.insert a s).lookup p =
      if p = a then (some s).filter (!·.isEmpty) else byPrev.lookup p := by
  split
  · next hempty => rw [lookup_erase_ite, filter_some_neg (by simpa using hempty)]
  · next hempty => rw [lookup_insert_ite, filter_some_pos (by simpa using hempty)]

/-- A set that has become empty is erased. -/
theorem lookup_eraseFromPrevs : (eraseFromPrevs hash byPrev vin).lookup p =
    if vin.any fun txin => txin.prevout.hash == p then
      (some (((byPrev.lookup p).getD []).filter (· != hash))).filter (!·.isEmpty)
    else byPrev.lookup p := by
  induction vin generalizing byPrev with
  | nil => simp [eraseFromPrevs]
  | cons txin vin ih =>
    unfold eraseFromPrevs at ih ⊢
    rw [foldl_cons, ih, lookup_erase_or_insert, any_cons]
    by_cases hp : p = txin.prevout.hash
    · subst hp
      simp [getD_filter_isEmpty]
    · simp [hp, Ne.symm hp]

theorem mem_eraseFromPrevs : h ∈ ((eraseFromPrevs hash byPrev vin).lookup p).getD [] ↔
    h ∈ (byPrev.lookup p).getD [] ∧
      ¬ (h = hash ∧ (vin.any fun txin => txin.prevout.hash == p)) := by
  rw [lookup_eraseFromPrevs]
  split
  · next hany => simp [getD_filter_isEmpty, hany]
  · next hany => simp [hany]

theorem dangling_eraseFromPrevs : (eraseFromPrevs hash byPrev vin).lookup p = some [] ↔
    byPrev.lookup p = some [] ∧ (vin.any fun txin => txin.prevout.hash == p) = false := by
  rw [lookup_eraseFromPrevs]
  split
  · next hany => simp [hany]
  · next hany => simp [hany]

/-! ## The functions -/

theorem mem_waiting_iff :
    hash ∈ orphans.waiting hashPrev ↔
      hash ∈ (orphans.mapOrphanTransactionsByPrev.lookup hashPrev).getD [] := Iff.rfl

theorem addOrphanTx_cases (crypto : Crypto) (orphans : OrphanTxs) (tx : CTransaction) :
    (orphans.addOrphanTx crypto tx).2 = orphans ∨
      (crypto.txHash tx ∉ orphans.mapOrphanTransactions ∧ (orphans.addOrphanTx crypto tx).2 =
          ⟨orphans.mapOrphanTransactions.insert (crypto.txHash tx) tx,
            addToPrevs (crypto.txHash tx) orphans.mapOrphanTransactionsByPrev tx.vin⟩) := by
  simp only [addOrphanTx]
  by_cases hmem : crypto.txHash tx ∈ orphans.mapOrphanTransactions
  · rw [if_pos hmem]
    exact .inl rfl
  · rw [if_neg hmem]
    by_cases hsize : 5000 < tx.nSerSize.toNat
    · rw [if_pos hsize]
      exact .inl rfl
    · rw [if_neg hsize]
      exact .inr ⟨hmem, rfl⟩

theorem Indexed.addOrphanTx (h : orphans.Indexed crypto) (tx : CTransaction) :
    (orphans.addOrphanTx crypto tx).2.Indexed crypto := by
  rcases addOrphanTx_cases crypto orphans tx with heq | ⟨hnew, heq⟩
  · rw [heq]
    exact h
  · have hnone := AList.lookup_eq_none.mpr hnew
    rw [heq]
    constructor
    · intro hash t ht
      rw [lookup_insert_ite] at ht
      split at ht
      · next hhash =>
        cases ht
        exact hhash.symm
      · exact h.keyed hash t ht
    · intro hashPrev hash
      rw [mem_waiting_iff, mem_addToPrevs, ← mem_waiting_iff, h.mem_waiting, lookup_insert_ite]
      split
      · next hhash =>
        subst hhash
        simp [hnone, CTransaction.spendsFrom]
      · next hne => simp [hne]

theorem dangling_addOrphanTx (h : (orphans.addOrphanTx crypto tx).2.Dangling hashPrev) :
    orphans.Dangling hashPrev := by
  rcases addOrphanTx_cases crypto orphans tx with heq | ⟨-, heq⟩
  · rwa [heq] at h
  · rw [heq] at h
    exact dangling_of_addToPrevs h

theorem Indexed.eraseOrphanTx (h : orphans.Indexed crypto) (hash : Uint256) :
    (orphans.eraseOrphanTx hash).Indexed crypto := by
  unfold OrphanTxs.eraseOrphanTx
  split
  · exact h
  · next tx htx =>
    constructor
    · intro k t ht
      rw [lookup_erase_ite] at ht
      split at ht
      · cases ht
      · exact h.keyed k t ht
    · intro hashPrev k
      rw [mem_waiting_iff, mem_eraseFromPrevs, ← mem_waiting_iff, h.mem_waiting, lookup_erase_ite]
      split
      · next heq =>
        subst heq
        simp [htx, CTransaction.spendsFrom]
      · next hne => simp [hne]

theorem Indexed.dangling_eraseOrphanTx (h : orphans.Indexed crypto) (hash hashPrev : Uint256) :
    (orphans.eraseOrphanTx hash).Dangling hashPrev ↔ orphans.Dangling hashPrev := by
  unfold OrphanTxs.eraseOrphanTx
  split
  · exact Iff.rfl
  · next tx htx =>
    constructor
    · exact fun hd => (dangling_eraseFromPrevs.mp hd).1
    · exact fun hd => dangling_eraseFromPrevs.mpr ⟨hd, h.not_spendsFrom hd htx⟩

theorem size_eraseOrphanTx (hash : Uint256) : (orphans.eraseOrphanTx hash).size =
    if hash ∈ orphans.mapOrphanTransactions then orphans.size - 1 else orphans.size := by
  unfold OrphanTxs.eraseOrphanTx
  split
  · next hnone => rw [if_neg (AList.lookup_eq_none.mp hnone)]
  · next tx htx =>
    have hmem : hash ∈ orphans.mapOrphanTransactions := mem_of_lookup htx
    rw [if_pos hmem, size, AList.keys_erase]
    exact length_erase_of_mem (AList.mem_keys.mp hmem)

theorem limitLoop_induct (herase : ∀ orphans hash, P orphans → P (orphans.eraseOrphanTx hash)) :
    ∀ {fuel nEvicted : Nat} {orphans : OrphanTxs},
    P orphans → P (limitLoop rand nMaxOrphans fuel nEvicted orphans).2
  | 0, _, _, h => h
  | fuel + 1, nEvicted, orphans, h => by
    rw [limitLoop]
    split
    · split
      · exact h
      · exact limitLoop_induct herase (herase _ _ h)
    · exact h

theorem exists_evicted (randomhash : Uint256) (h : 0 < orphans.size) :
    ∃ hash ∈ orphans.mapOrphanTransactions,
      (orphans.sortedKeys.find? fun hash => randomhash ≤ hash).or orphans.sortedKeys.head? =
        some hash := by
  have hkeys : ∀ hash ∈ orphans.sortedKeys, hash ∈ orphans.mapOrphanTransactions := fun hash hm =>
    AList.mem_keys.mpr ((mem_insertionSort _).mp hm)
  cases hfind : orphans.sortedKeys.find? fun hash => randomhash ≤ hash with
  | some hash => exact ⟨hash, hkeys hash (mem_of_find?_eq_some hfind), rfl⟩
  | none =>
    cases hlist : orphans.sortedKeys with
    | nil =>
      have hlen : orphans.sortedKeys.length = orphans.size := length_insertionSort _ _
      rw [hlist, length_nil] at hlen
      omega
    | cons hash rest => exact ⟨hash, hkeys hash (hlist ▸ mem_cons_self ..), rfl⟩

theorem size_limitLoop :
    ∀ {fuel nEvicted : Nat} {orphans : OrphanTxs}, orphans.size ≤ fuel + nMaxOrphans →
      (limitLoop rand nMaxOrphans fuel nEvicted orphans).2.size ≤ nMaxOrphans
  | 0, _, _, h => by simpa [limitLoop] using h
  | fuel + 1, nEvicted, orphans, h => by
    rw [limitLoop]
    split
    · next hlarge =>
      obtain ⟨hash, hmem, hsome⟩ := exists_evicted (rand nEvicted) (Nat.zero_lt_of_lt hlarge)
      rw [hsome]
      refine size_limitLoop ?_
      rw [size_eraseOrphanTx, if_pos hmem]
      omega
    · next hsmall => exact Nat.le_of_not_lt hsmall

theorem limitOrphanTxSize_induct
    (herase : ∀ orphans hash, P orphans → P (orphans.eraseOrphanTx hash)) (rand : Nat → Uint256)
    (nMaxOrphans : Nat) (h : P orphans) : P (orphans.limitOrphanTxSize rand nMaxOrphans).2 :=
  limitLoop_induct herase h

/-! ### Subscripts -/

theorem lookup_subscript (hashPrev p : Uint256) :
    (orphans.subscript hashPrev).mapOrphanTransactionsByPrev.lookup p =
      if p = hashPrev ∧ hashPrev ∉ orphans.mapOrphanTransactionsByPrev then some []
      else orphans.mapOrphanTransactionsByPrev.lookup p := by
  unfold subscript
  by_cases hmem : hashPrev ∈ orphans.mapOrphanTransactionsByPrev
  · rw [if_pos hmem, if_neg (fun h => h.2 hmem)]
  · rw [if_neg hmem, lookup_insert_ite]
    simp only [hmem, not_false_eq_true, and_true]

theorem mapOrphanTransactions_subscript (hashPrev : Uint256) :
    (orphans.subscript hashPrev).mapOrphanTransactions = orphans.mapOrphanTransactions := by
  unfold subscript
  split <;> rfl

theorem waiting_subscript (hashPrev p : Uint256) :
    (orphans.subscript hashPrev).waiting p = orphans.waiting p := by
  rw [waiting, lookup_subscript]
  split
  · next h =>
    rw [h.1, waiting, AList.lookup_eq_none.mpr h.2]
    rfl
  · rfl

theorem Indexed.subscript (h : orphans.Indexed crypto) (hashPrev : Uint256) :
    (orphans.subscript hashPrev).Indexed crypto := by
  constructor
  · rw [mapOrphanTransactions_subscript]
    exact h.keyed
  · intro p hash
    rw [waiting_subscript, mapOrphanTransactions_subscript]
    exact h.mem_waiting p hash

theorem dangling_foldl_subscript : ∀ {queue : List Uint256} {orphans : OrphanTxs},
    (queue.foldl subscript orphans).Dangling p ↔
      orphans.Dangling p ∨ (p ∈ queue ∧ p ∉ orphans.mapOrphanTransactionsByPrev)
  | [], orphans => by simp
  | hashPrev :: queue, orphans => by
    rw [foldl_cons, dangling_foldl_subscript, Dangling, Dangling, ← AList.lookup_eq_none,
      ← AList.lookup_eq_none, lookup_subscript]
    by_cases hp : p = hashPrev
    · subst hp
      by_cases hmem : p ∈ orphans.mapOrphanTransactionsByPrev
      · have hsome : orphans.mapOrphanTransactionsByPrev.lookup p ≠ none :=
          fun hnone => AList.lookup_eq_none.mp hnone hmem
        simp [hmem, hsome]
      · simp [hmem, AList.lookup_eq_none.mpr hmem]
    · simp [hp]

theorem Indexed.foldl_subscript (h : orphans.Indexed crypto) (queue : List Uint256) :
    (queue.foldl OrphanTxs.subscript orphans).Indexed crypto ∧
      (queue.foldl OrphanTxs.subscript orphans).mapOrphanTransactions =
        orphans.mapOrphanTransactions := by
  refine foldlRecOn (motive := fun o : OrphanTxs => o.Indexed crypto ∧
    o.mapOrphanTransactions = orphans.mapOrphanTransactions) queue _ ⟨h, rfl⟩ ?_
  rintro _ ⟨hindexed, hmap⟩ hashPrev -
  exact ⟨hindexed.subscript hashPrev, (mapOrphanTransactions_subscript hashPrev).trans hmap⟩

theorem Indexed.foldl_eraseOrphanTx (h : orphans.Indexed crypto) (queue : List Uint256) :
    (queue.foldl OrphanTxs.eraseOrphanTx orphans).Indexed crypto ∧
      (∀ p, (queue.foldl OrphanTxs.eraseOrphanTx orphans).Dangling p ↔ orphans.Dangling p) ∧
      (queue.foldl OrphanTxs.eraseOrphanTx orphans).size ≤ orphans.size := by
  induction queue generalizing orphans with
  | nil => exact ⟨h, fun _ => Iff.rfl, Nat.le_refl _⟩
  | cons hash queue ih =>
    obtain ⟨hindexed, hdangling, hsize⟩ := ih (h.eraseOrphanTx hash)
    refine ⟨hindexed, fun p => (hdangling p).trans (h.dangling_eraseOrphanTx hash p),
      hsize.trans ?_⟩
    rw [size_eraseOrphanTx]
    split <;> omega

theorem subscriptTx_of_lookup {nullTx : CTransaction}
    (h : orphans.mapOrphanTransactions.lookup hash = some tx) :
    orphans.subscriptTx nullTx hash = (tx, orphans) := by
  rw [subscriptTx, h]

end OrphanTxs

/-! ## The search for the orphans of an accepted transaction -/

section

variable {π : Type} {accept : Accept π} {nullTx tx : CTransaction}

variable (accept nullTx tx)

theorem vWorkQueue_foldl_visitOrphan : ∀ (hashes : List Uint256) (w : TxWork π),
    w.vWorkQueue <+: (hashes.foldl (visitOrphan accept nullTx tx) w).vWorkQueue
  | [], w => prefix_rfl
  | hash :: hashes, w => by
    have hfirst : w.vWorkQueue <+: (visitOrphan accept nullTx tx w hash).vWorkQueue := by
      simp only [visitOrphan]
      split
      · exact prefix_append _ _
      · exact prefix_rfl
    exact hfirst.trans (vWorkQueue_foldl_visitOrphan hashes _)

theorem vWorkQueue_visitPrev (w : TxWork π) (hashPrev : Uint256) :
    w.vWorkQueue <+: (visitPrev accept nullTx tx w hashPrev).vWorkQueue :=
  vWorkQueue_foldl_visitOrphan accept nullTx tx _ { w with orphans := w.orphans.subscript hashPrev }

variable {w : TxWork π}

theorem visitOrphan_orphans {hash : Uint256} (h : hash ∈ w.orphans.mapOrphanTransactions) :
    (visitOrphan accept nullTx tx w hash).orphans = w.orphans := by
  obtain ⟨orphanTx, hlookup⟩ := exists_lookup h
  simp only [visitOrphan, OrphanTxs.subscriptTx_of_lookup hlookup]
  split
  · rfl
  · rfl

theorem foldl_visitOrphan_orphans (hashes : List Uint256) (w : TxWork π)
    (h : ∀ hash ∈ hashes, hash ∈ w.orphans.mapOrphanTransactions) :
    (hashes.foldl (visitOrphan accept nullTx tx) w).orphans = w.orphans := by
  refine foldlRecOn (motive := fun w' : TxWork π => w'.orphans = w.orphans) hashes _ rfl ?_
  intro w' heq hash hmem
  rw [visitOrphan_orphans accept nullTx tx (heq ▸ h hash hmem), heq]

theorem visitPrev_orphans (h : w.orphans.Indexed crypto) (hashPrev : Uint256) :
    (visitPrev accept nullTx tx w hashPrev).orphans = w.orphans.subscript hashPrev := by
  refine foldl_visitOrphan_orphans accept nullTx tx _
    { w with orphans := w.orphans.subscript hashPrev } ?_
  intro hash hhash
  obtain ⟨orphanTx, hlookup, -⟩ := ((h.subscript hashPrev).mem_waiting hashPrev hash).mp hhash
  exact mem_of_lookup hlookup

variable {accept nullTx tx} {msg : TxMessage π}

theorem processOrphans_orphans {fuel : Nat} {w' : TxWork π} (h : w.orphans.Indexed crypto)
    (hrun : processOrphans accept nullTx tx fuel w = some w') :
    w'.orphans = w'.vWorkQueue.foldl OrphanTxs.subscript w.orphans := by
  have hround : ∀ (i : Nat) (v : TxWork π) (hashPrev : Uint256),
      v.orphans = (v.vWorkQueue.take i).foldl OrphanTxs.subscript w.orphans →
      v.vWorkQueue[i]? = some hashPrev →
      (visitPrev accept nullTx tx v hashPrev).orphans =
        ((visitPrev accept nullTx tx v hashPrev).vWorkQueue.take (i + 1)).foldl
          OrphanTxs.subscript w.orphans := by
    intro i v hashPrev hv hi
    have hindexed : v.orphans.Indexed crypto := by
      rw [hv]
      exact (h.foldl_subscript _).1
    have horphans := visitPrev_orphans accept nullTx tx hindexed hashPrev
    obtain ⟨queue, hqueue⟩ := vWorkQueue_visitPrev accept nullTx tx v hashPrev
    obtain ⟨hlt, hget⟩ := List.getElem?_eq_some_iff.mp hi
    rw [horphans, ← hqueue, take_append_of_le_length hlt, take_add_one, hi, foldl_append, ← hv]
    rfl
  obtain ⟨j, hj, hend⟩ := WorkQueue.run_induct hround rfl hrun
  rwa [take_of_length_le hend] at hj

/-! ## Messages -/

/-- What a message does to the orphans, with the accepted transactions in `vWorkQueue`. -/
structure Handled (crypto : Crypto) (orphans : OrphanTxs) (w : TxWork π) : Prop where
  indexed : w.orphans.Indexed crypto
  size_le : w.orphans.size ≤ MAX_ORPHAN_TRANSACTIONS
  dangling_iff : ∀ p, ¬ orphans.Dangling p →
    (w.orphans.Dangling p ↔ p ∈ w.vWorkQueue ∧ p ∉ orphans.mapOrphanTransactionsByPrev)

theorem processTx_handled (h : orphans.Indexed crypto)
    (hsize : orphans.size ≤ MAX_ORPHAN_TRANSACTIONS)
    (hrun : processTx crypto accept orphans msg = some w) : Handled crypto orphans w := by
  unfold processTx at hrun
  rcases haccept : accept msg.pool msg.tx with ⟨pool, ⟨fMissingInputs, reject⟩ | ⟨⟩⟩
  · -- not accepted
    simp only [haccept, some.injEq] at hrun
    subst hrun
    cases fMissingInputs with
    | false => exact ⟨h, hsize, fun p hp => ⟨fun hd => absurd hd hp, fun hq => by cases hq.1⟩⟩
    | true =>
      have hadd := h.addOrphanTx msg.tx
      have hlimit := OrphanTxs.limitOrphanTxSize_induct
        (P := fun o => o.Indexed crypto ∧ ∀ p, o.Dangling p → orphans.Dangling p)
        (fun o hash ⟨hindexed, hdangling⟩ => ⟨hindexed.eraseOrphanTx hash,
          fun p hp => hdangling p ((hindexed.dangling_eraseOrphanTx hash p).mp hp)⟩)
        msg.rand MAX_ORPHAN_TRANSACTIONS ⟨hadd, fun p => OrphanTxs.dangling_addOrphanTx⟩
      exact ⟨hlimit.1, OrphanTxs.size_limitLoop (Nat.le_add_right _ _),
        fun p hp => ⟨fun hd => absurd (hlimit.2 p hd) hp, fun hq => by cases hq.1⟩⟩
  · -- accepted
    simp only [haccept, bind_eq_bind, bind_eq_some_iff, some.injEq] at hrun
    obtain ⟨w', hw', rfl⟩ := hrun
    have horphans : w'.orphans = w'.vWorkQueue.foldl OrphanTxs.subscript orphans :=
      processOrphans_orphans h hw'
    obtain ⟨hindexed, hmap⟩ := h.foldl_subscript w'.vWorkQueue
    rw [← horphans] at hindexed hmap
    obtain ⟨hindexed', hdangling, hle⟩ := hindexed.foldl_eraseOrphanTx w'.vEraseQueue
    refine ⟨hindexed', hle.trans ?_, fun p hp => ?_⟩
    · rw [OrphanTxs.size, hmap]
      exact hsize
    · rw [hdangling p, horphans, OrphanTxs.dangling_foldl_subscript]
      exact or_iff_right hp

/-- An exact index stays exact if and only if every accepted transaction had an orphan. -/
theorem exact_processTx_iff (h : orphans.Indexed crypto) (hexact : orphans.Exact)
    (hw : Handled crypto orphans w) :
    w.orphans.Exact ↔ ∀ hashPrev ∈ w.vWorkQueue, ∃ hash tx,
      orphans.mapOrphanTransactions.lookup hash = some tx ∧ tx.spendsFrom hashPrev := by
  have hnone := h.exact_iff.mp hexact
  rw [hw.indexed.exact_iff]
  constructor
  · intro hno p hp
    by_contra hcon
    exact hno p ((hw.dangling_iff p (hnone p)).mpr ⟨hp, fun hk => hcon ((hexact.mem_keys p).mp hk)⟩)
  · intro hall p hd
    obtain ⟨hp, hkey⟩ := (hw.dangling_iff p (hnone p)).mp hd
    exact hkey ((hexact.mem_keys p).mpr (hall p hp))

variable (crypto accept) in
/-- Every round over the accepted transactions has one from which an orphan spends. -/
def AcceptedHaveOrphans (orphans : OrphanTxs) (msg : TxMessage π) : Prop :=
  ∀ pool, accept msg.pool msg.tx = (pool, .ok ()) → ∀ i w hashPrev,
    WorkQueue.Reaches TxWork.vWorkQueue (visitPrev accept msg.nullTx msg.tx)
      (acceptedWork crypto orphans msg pool) i w →
    w.vWorkQueue[i]? = some hashPrev → ∃ hash tx,
      orphans.mapOrphanTransactions.lookup hash = some tx ∧ tx.spendsFrom hashPrev = true

/-- The rounds of a message that is handled have the transactions of the queue in the end. -/
theorem acceptedHaveOrphans_iff (hrun : processTx crypto accept orphans msg = some w) :
    AcceptedHaveOrphans crypto accept orphans msg ↔ ∀ hashPrev ∈ w.vWorkQueue, ∃ hash tx,
      orphans.mapOrphanTransactions.lookup hash = some tx ∧ tx.spendsFrom hashPrev := by
  unfold processTx at hrun
  rcases haccept : accept msg.pool msg.tx with ⟨pool, ⟨fMissingInputs, reject⟩ | ⟨⟩⟩
  · simp only [haccept, some.injEq] at hrun
    subst hrun
    exact ⟨fun _ => nofun, fun _ pool' h => by cases haccept.symm.trans h⟩
  · simp only [haccept, bind_eq_bind, bind_eq_some_iff, some.injEq] at hrun
    obtain ⟨w', hw', rfl⟩ := hrun
    have hmem := fun hashPrev => WorkQueue.mem_queue_iff
      (vWorkQueue_visitPrev accept msg.nullTx msg.tx) hw' (k := hashPrev)
    constructor
    · intro hall hashPrev hqueue
      obtain ⟨i, v, hreach, hi⟩ := (hmem hashPrev).mp hqueue
      exact hall pool haccept i v hashPrev hreach hi
    · intro hall pool' haccept' i v hashPrev hreach hi
      cases haccept.symm.trans haccept'
      exact hall hashPrev ((hmem hashPrev).mpr ⟨i, v, hreach, hi⟩)

theorem OrphanTxs.indexed_empty : OrphanTxs.empty.Indexed crypto :=
  ⟨fun _ _ h => (by cases h), fun _ _ => ⟨fun h => (by cases h), fun ⟨_, h, _⟩ => by cases h⟩⟩

theorem indexed_step (orphans : OrphanTxs) (msg : TxMessage π) (orphans' : OrphanTxs)
    (h : orphans.Indexed crypto ∧ orphans.size ≤ MAX_ORPHAN_TRANSACTIONS)
    (hstep : (processTx crypto accept orphans msg).map (·.orphans) = some orphans') :
    orphans'.Indexed crypto ∧ orphans'.size ≤ MAX_ORPHAN_TRANSACTIONS := by
  obtain ⟨w, hw, rfl⟩ := map_eq_some_iff.mp hstep
  have hhandled := processTx_handled h.1 h.2 hw
  exact ⟨hhandled.indexed, hhandled.size_le⟩

theorem processTxs_indexed (msgs : List (TxMessage π))
    (h : processTxs crypto accept .empty msgs = some orphans) :
    orphans.Indexed crypto ∧ orphans.size ≤ MAX_ORPHAN_TRANSACTIONS :=
  Runs.run_invariant indexed_step ⟨OrphanTxs.indexed_empty, Nat.zero_le _⟩ msgs h

theorem exact_step_iff (orphans : OrphanTxs) (msg : TxMessage π) (orphans' : OrphanTxs)
    (h : orphans.Indexed crypto ∧ orphans.size ≤ MAX_ORPHAN_TRANSACTIONS) (hexact : orphans.Exact)
    (hstep : (processTx crypto accept orphans msg).map (·.orphans) = some orphans') :
    orphans'.Exact ↔ AcceptedHaveOrphans crypto accept orphans msg := by
  obtain ⟨w, hw, rfl⟩ := map_eq_some_iff.mp hstep
  rw [exact_processTx_iff h.1 hexact (processTx_handled h.1 h.2 hw), acceptedHaveOrphans_iff hw]

/-- After any messages there are at most `MAX_ORPHAN_TRANSACTIONS` orphans, and the set under a hash
has exactly the orphans that spend from it, a missing set being empty. The index is exact after
every message if and only if an orphan spends from every transaction that was accepted. -/
theorem processTxs_index (crypto : Crypto) (accept : Accept π) (msgs : List (TxMessage π))
    (orphans : OrphanTxs) (hrun : processTxs crypto accept .empty msgs = some orphans) :
    orphans.size ≤ MAX_ORPHAN_TRANSACTIONS ∧ orphans.Indexed crypto ∧
    ((∀ pre, pre <+: msgs → ∀ o, processTxs crypto accept .empty pre = some o → o.Exact) ↔
      ∀ pre msg, pre ++ [msg] <+: msgs → ∀ o, processTxs crypto accept .empty pre = some o →
        AcceptedHaveOrphans crypto accept o msg) := by
  obtain ⟨hindexed, hsize⟩ := processTxs_indexed msgs hrun
  have hempty : OrphanTxs.empty.Indexed crypto := OrphanTxs.indexed_empty
  have hexact : OrphanTxs.empty.Exact := hempty.exact_iff.mpr fun _ h => by cases h
  exact ⟨hsize, hindexed,
    Runs.forall_prefix_iff indexed_step ⟨hempty, Nat.zero_le _⟩ exact_step_iff hexact hrun⟩

end

def scripted : Accept (List (Except (Bool × Reject) Unit))
  | [], _ => ([], .error (false, .error ""))
  | outcome :: outcomes, _ => (outcomes, outcome)

def missingInputs : Except (Bool × Reject) Unit := .error (true, .error "")

def orphanParent : CTransaction := ⟨1, 0, [], [⟨5, []⟩], 0⟩

def orphanChild : CTransaction :=
  ⟨1, 0, [⟨⟨Crypto.sample.txHash orphanParent, 0⟩, [], 0xffffffff⟩], [⟨4, []⟩], 0⟩

def scriptedMessage (tx : CTransaction) (outcomes : List (Except (Bool × Reject) Unit)) :
    TxMessage (List (Except (Bool × Reject) Unit)) :=
  ⟨tx, outcomes, fun _ => 0, ⟨1, 0, [], [], 0⟩, 3⟩

/-- The parent is accepted when the child still misses another input. -/
theorem orphanChild_index : ∃ orphans, processTxs Crypto.sample scripted .empty
      [scriptedMessage orphanChild [missingInputs],
        scriptedMessage orphanParent [.ok (), missingInputs]] = some orphans ∧
    orphans.size ≤ MAX_ORPHAN_TRANSACTIONS ∧ orphans.Indexed Crypto.sample := by
  refine ⟨Option.get _ (by decide +kernel), (Option.some_get _).symm, ?_⟩
  obtain ⟨hsize, hindexed, -⟩ := processTxs_index Crypto.sample scripted _ _ (some_get _).symm
  exact ⟨hsize, hindexed⟩

/-- A transaction that is accepted when there are no orphans leaves a key behind. -/
theorem orphanParent_not_exact : ∃ orphans,
    processTxs Crypto.sample scripted .empty [scriptedMessage orphanParent [.ok ()]] =
      some orphans ∧
    orphans.mapOrphanTransactions.keys = [] ∧
    orphans.mapOrphanTransactionsByPrev.lookup (Crypto.sample.txHash orphanParent) = some [] ∧
    ¬ orphans.Exact := by
  refine ⟨Option.get _ (by decide +kernel), (Option.some_get _).symm, by decide +kernel,
    by decide +kernel, fun hexact => ?_⟩
  exact (hexact.set (Crypto.sample.txHash orphanParent) [] (by decide +kernel)).1 rfl

end NovaCoin
