import NovaCoin.Miner
import NovaCoin.Spec.Transfer

/-!
# What CreateNewBlock selects

The main loop tries some transactions of the pool, none of them twice, and those it adds are added by
`addTx` one after the other (`Picks`). Which transactions come first does not matter. Those that are
not final, lack an input or are outside the limits of an empty template (`isCandidate`) are never added,
whatever else they are like.

`QueueInv` is the invariant of the queue: a transaction is either taken off, in the queue, or waiting
for others, and it moves to the queue only when the last transaction it depends on was added.
-/

namespace NovaCoin

open Guard SpentIndex List

namespace Miner

variable {D : Type} {m : Miner D}

/-! ## The pool -/

def InPool (m : Miner D) (tx : CTransaction) : Prop :=
  m.mempool.mapTx.lookup (m.env.txHash tx) = some tx

variable {tx : CTransaction} {s s' : Selected} {t : TxPriority D}
  {mapDependers : Uint256 → List Uint256} {popped : List Uint256} {q : Queue D}

theorem inPool_of_mem (hc : m.mempool.Checked m.env.crypto) (h : tx ∈ m.mempool.txs) :
    m.InPool tx := by
  obtain ⟨hash, hl⟩ := CTxMemPool.mem_txs_iff.mp h
  rw [InPool, Env.txHash, (hc hash tx hl).hash]
  exact hl

theorem InPool.poolTx (hc : m.mempool.Checked m.env.crypto) (h : m.InPool tx) :
    PoolTx m.env.crypto (m.env.txHash tx) tx :=
  hc _ _ h

theorem InPool.mem (h : m.InPool tx) : tx ∈ m.mempool.txs :=
  CTxMemPool.mem_txs_iff.mpr ⟨_, h⟩

/-- The pool has every txid once. -/
theorem nodup_txs (hc : m.mempool.Checked m.env.crypto) :
    (m.mempool.txs.map m.env.txHash).Nodup := by
  have hkeys : m.mempool.txs.map m.env.txHash =
      (m.mempool.mapTx.entries.insertionSort fun a b => a.1 ≤ b.1).map (·.1) := by
    rw [CTxMemPool.txs, map_map]
    refine map_congr_left fun e he => ?_
    rw [mem_insertionSort] at he
    exact (hc e.1 e.2 (AList.mem_lookup_iff.mpr he)).hash
  rw [hkeys]
  have hperm := perm_insertionSort (fun a b => a.1 ≤ b.1) m.mempool.mapTx.entries
  exact (hperm.map _).nodup_iff.mpr m.mempool.mapTx.nodupKeys

/-! ## Transactions that may be added -/

def InputResolved (m : Miner D) (txin : CTxIn) : Prop :=
  (readFromDisk m.env m.db txin.prevout).isSome = true ∨
    ∃ txPrev, m.mempool.mapTx.lookup txin.prevout.hash = some txPrev ∧
      txin.prevout.n.toNat < txPrev.vout.length

def InputMissing (m : Miner D) (txin : CTxIn) : Prop :=
  readFromDisk m.env m.db txin.prevout = none ∧ m.mempool.mapTx.lookup txin.prevout.hash = none

/-- What the scan lets through: a final transaction of the pool with all its inputs. -/
structure Eligible (m : Miner D) (tx : CTransaction) : Prop where
  inPool : m.InPool tx
  isFinal : tx.isFinal ((m.pindexPrev.head?.map (·.nHeight)).getD 0) m.env.getAdjustedTime = true
  inputs : ∀ txin ∈ tx.vin, m.InputResolved txin

/-- A final transaction, with all its inputs, that an empty template has room for and whose timestamp
is within the limits. -/
def isCandidate (m : Miner D) (tx : CTransaction) : Bool :=
  tx.isFinal ((m.pindexPrev.head?.map (·.nHeight)).getD 0) m.env.getAdjustedTime &&
    (tx.vin.all fun txin => (readFromDisk m.env m.db txin.prevout).isSome ||
      (m.mempool.mapTx.lookup txin.prevout.hash).isSome) &&
    !m.isOverLimits selected tx

/-- The transactions of the pool that the main loop may come to add. -/
def candidates (m : Miner D) : List CTransaction := m.mempool.txs.filter m.isCandidate

theorem mem_candidates (hin : m.InPool tx) (h : m.isCandidate tx = true) : tx ∈ m.candidates :=
  mem_filter.mpr ⟨hin.mem, h⟩

theorem isOverLimits_mono (hsize : s.nBlockSize ≤ s'.nBlockSize)
    (hsigOps : s.nBlockSigOps ≤ s'.nBlockSigOps) (h : m.isOverLimits s' tx = false) :
    m.isOverLimits s tx = false := by
  simp only [isOverLimits, Bool.or_eq_false_iff, decide_eq_false_iff_not, not_le, not_lt] at h ⊢
  obtain ⟨⟨⟨h₁, h₂⟩, h₃⟩, h₄⟩ := h
  exact ⟨⟨⟨by omega, by omega⟩, h₃⟩, h₄⟩

/-- The limits only get tighter while the template grows. -/
theorem Eligible.isCandidate (h : m.Eligible tx) (hsize : selected.nBlockSize ≤ s.nBlockSize)
    (hsigOps : selected.nBlockSigOps ≤ s.nBlockSigOps) (hlimits : m.isOverLimits s tx = false) :
    m.isCandidate tx = true := by
  have hinputs : (tx.vin.all fun txin => (readFromDisk m.env m.db txin.prevout).isSome ||
      (m.mempool.mapTx.lookup txin.prevout.hash).isSome) = true := by
    rw [all_eq_true]
    intro txin hin
    rw [Bool.or_eq_true]
    refine (h.inputs txin hin).imp_right ?_
    rintro ⟨txPrev, hl, -⟩
    rw [hl]
    rfl
  rw [Miner.isCandidate, h.isFinal, hinputs, isOverLimits_mono hsize hsigOps hlimits]
  rfl

/-! ## Adding a transaction -/

/-- What `addTx` has done when it has added a transaction. -/
structure Added (m : Miner D) (s : Selected) (tx : CTransaction) (inputs : MapPrevTx)
    (nValueIn nValueOut : Int64) (nP2SHSigOps : Nat) (mapTestPoolTmp : QueuedChanges)
    (s' : Selected) : Prop where
  fetched : fetchInputs m.poolEnv m.db s.mapTestPool false true tx = .ok inputs
  valueIn : tx.getValueIn inputs = .ok nValueIn
  valueOut : tx.getValueOut = .ok nValueOut
  p2shSigOps : tx.getP2SHSigOpCount inputs = .ok nP2SHSigOps
  sigOps : s.nBlockSigOps + (tx.getLegacySigOpCount + nP2SHSigOps) < MAX_BLOCK_SIGOPS
  connected : ∃ vChecks, connectInputs m.poolEnv m.db inputs s.mapTestPool m.connectArgs tx =
    .ok (mapTestPoolTmp, vChecks)
  eq : s' =
    { mapTestPool := mapTestPoolTmp.insert (m.env.txHash tx) (CTxIndex.new .inMemory tx.vout.length)
      nBlockSize := s.nBlockSize + tx.getSerializeSize
      nBlockSigOps := s.nBlockSigOps + (tx.getLegacySigOpCount + nP2SHSigOps)
      nFees := s.nFees + (nValueIn - nValueOut)
      vtx := s.vtx ++ [tx] }

theorem addTx_eq_some (h : m.addTx s tx = .ok (some s')) :
    ∃ inputs nValueIn nValueOut nP2SHSigOps mapTestPoolTmp,
      Added m s tx inputs nValueIn nValueOut nP2SHSigOps mapTestPoolTmp s' := by
  unfold addTx at h
  split at h
  · cases h
  · next inputs hfetch =>
    obtain ⟨nValueIn, hin, h⟩ := bind_eq_ok.mp h
    obtain ⟨nValueOut, hout, h⟩ := bind_eq_ok.mp h
    dsimp only at h
    split at h
    · cases h
    · obtain ⟨nP2SHSigOps, hp2sh, h⟩ := bind_eq_ok.mp h
      split at h
      · cases h
      · next hsig =>
        split at h
        · cases h
        · next queue vChecks hconnect =>
          cases h
          exact ⟨inputs, nValueIn, nValueOut, nP2SHSigOps, queue, hfetch, hin, hout, hp2sh,
            Nat.lt_of_not_le hsig, ⟨vChecks, hconnect⟩, rfl⟩

theorem addTx_grows (h : m.addTx s tx = .ok (some s')) :
    s.nBlockSize ≤ s'.nBlockSize ∧ s.nBlockSigOps ≤ s'.nBlockSigOps := by
  obtain ⟨_, _, _, _, _, hadded⟩ := addTx_eq_some h
  rw [hadded.eq]
  exact ⟨Nat.le_add_right _ _, Nat.le_add_right _ _⟩

/-- On a transaction of the pool, `addTx` throws nothing. -/
theorem exists_addTx {hash : Uint256} (htx : PoolTx m.env.crypto hash tx) (s : Selected) :
    ∃ r, m.addTx s tx = .ok r := by
  unfold addTx
  split
  · exact ⟨none, rfl⟩
  · next inputs hfetch =>
    have houts : ∀ txin ∈ tx.vin, ∃ txout, getOutputFor inputs txin = .ok txout := by
      intro txin hin
      obtain ⟨e, t, hfound, hf⟩ := fetchInputs_fetchable (by rfl) htx.not_coinBase hfetch txin hin
      exact ⟨_, getOutputFor_of_found hfound (getElem?_eq_getElem hf.vout)⟩
    obtain ⟨nValueIn, hin⟩ := CTransaction.exists_getValueIn houts
    obtain ⟨nValueOut, hout⟩ := CTransaction.exists_getValueOut htx.checked
    obtain ⟨nP2SHSigOps, hp2sh⟩ := CTransaction.exists_getP2SHSigOpCount houts
    rw [hin, hout, hp2sh]
    dsimp only [bind, Except.bind, pure, Except.pure]
    split
    · exact ⟨none, rfl⟩
    · split
      · exact ⟨none, rfl⟩
      · split
        · exact ⟨none, rfl⟩
        · exact ⟨_, rfl⟩

/-- Some transactions of the pool, added one after the other within the limits. -/
inductive Picks (m : Miner D) : Selected → List CTransaction → Selected → Prop
  | nil (s : Selected) : Picks m s [] s
  | cons {s s₁ s' : Selected} {tx : CTransaction} {txs : List CTransaction} (inPool : m.InPool tx)
      (candidate : m.isCandidate tx = true) (limits : m.isOverLimits s tx = false)
      (added : m.addTx s tx = .ok (some s₁)) (picks : Picks m s₁ txs s') : Picks m s (tx :: txs) s'

/-! ## The queue -/

def queued (m : Miner D) (q : Queue D) : List Uint256 := q.vecPriority.map fun t => m.env.txHash t.2.2

def orphans (m : Miner D) (q : Queue D) : List Uint256 := q.vOrphan.map fun o => m.env.txHash o.ptx

/-- The invariant of the queue when the transactions with the txids `popped` were taken off. -/
structure QueueInv (m : Miner D) (mapDependers : Uint256 → List Uint256) (popped : List Uint256)
    (q : Queue D) : Prop where
  popped_subset : popped ⊆ m.mempool.txs.map m.env.txHash
  nodup : (popped ++ m.queued q).Nodup
  eligible : ∀ t ∈ q.vecPriority, m.Eligible t.2.2
  orphan_eligible : ∀ o ∈ q.vOrphan, m.Eligible o.ptx
  orphans_nodup : (m.orphans q).Nodup
  /-- what still waits has never been in the queue -/
  waiting : ∀ o ∈ q.vOrphan, o.setDependsOn ≠ ∅ → m.env.txHash o.ptx ∉ popped ++ m.queued q
  pointers : ∀ hash, mapDependers hash ⊆ m.orphans q

section QueueInv

variable {porphan : Uint256}

/-- Reordering the vector changes nothing. -/
theorem QueueInv.of_perm (h : QueueInv m mapDependers popped q) {vecPriority : List (TxPriority D)}
    (hp : vecPriority.Perm q.vecPriority) (fSortedByFee : Bool) :
    QueueInv m mapDependers popped { q with vecPriority, fSortedByFee } := by
  have hqueued : (m.queued { q with vecPriority, fSortedByFee }).Perm (m.queued q) := hp.map _
  refine ⟨h.popped_subset, ?_, ?_, h.orphan_eligible, h.orphans_nodup, ?_, h.pointers⟩
  · exact (hqueued.append_left popped).nodup_iff.mpr h.nodup
  · exact fun t ht => h.eligible t (hp.mem_iff.mp ht)
  · intro o ho hne hm
    exact h.waiting o ho hne ((hqueued.append_left popped).mem_iff.mp hm)

theorem QueueInv.sortByFee (h : QueueInv m mapDependers popped q) (dPriority : D) (s : Selected)
    (tx : CTransaction) : QueueInv m mapDependers popped (m.sortByFee q dPriority s tx) := by
  unfold Miner.sortByFee
  split
  · exact h.of_perm (m.heap.make_perm _ _) true
  · exact h

/-- The front of the queue is taken out for good. -/
theorem QueueInv.pop (h : QueueInv m mapDependers popped q) {rest : List (TxPriority D)}
    (hq : q.vecPriority = t :: rest) :
    m.Eligible t.2.2 ∧ QueueInv m mapDependers (popped ++ [m.env.txHash t.2.2])
      { q with vecPriority := m.heap.pop (txPriorityCompare m.ops q.fSortedByFee) q.vecPriority } := by
  have hin : m.Eligible t.2.2 := h.eligible t (by rw [hq]; exact mem_cons_self)
  have hperm : (m.heap.pop (txPriorityCompare m.ops q.fSortedByFee) q.vecPriority).Perm rest := by
    rw [hq]
    exact m.heap.pop_perm _ t rest
  have hsame : (popped ++ [m.env.txHash t.2.2] ++ m.queued { q with
      vecPriority := m.heap.pop (txPriorityCompare m.ops q.fSortedByFee) q.vecPriority }).Perm
      (popped ++ m.queued q) := by
    rw [append_assoc]
    refine List.Perm.append_left popped ?_
    rw [queued, queued, hq]
    refine (List.Perm.map _ ?_).cons _
    rw [← hq]
    exact hperm
  refine ⟨hin, ?_, hsame.nodup_iff.mpr h.nodup, ?_, h.orphan_eligible, h.orphans_nodup, ?_, h.pointers⟩
  · refine append_subset.mpr ⟨h.popped_subset, ?_⟩
    exact cons_subset.mpr ⟨mem_map_of_mem hin.inPool.mem, nil_subset _⟩
  · intro u hu
    refine h.eligible u ?_
    rw [hq]
    exact mem_cons_of_mem t (hperm.mem_iff.mp hu)
  · exact fun o ho hne hm => h.waiting o ho hne (hsame.mem_iff.mp hm)

def setDepends (m : Miner D) (porphan : Uint256) (setDependsOn : Finset Uint256)
    (vOrphan : List (COrphan D)) : List (COrphan D) :=
  vOrphan.map fun o => if m.env.txHash o.ptx == porphan then { o with setDependsOn } else o

theorem mem_setDepends {setDependsOn : Finset Uint256} {vOrphan : List (COrphan D)} {o : COrphan D}
    (h : o ∈ m.setDepends porphan setDependsOn vOrphan) : ∃ o' ∈ vOrphan, o.ptx = o'.ptx ∧
      ((m.env.txHash o.ptx = porphan ∧ o.setDependsOn = setDependsOn) ∨
        (m.env.txHash o.ptx ≠ porphan ∧ o = o')) := by
  obtain ⟨o', ho', rfl⟩ := mem_map.mp h
  by_cases hp : m.env.txHash o'.ptx = porphan
  · simp only [hp, beq_self_eq_true, if_true]
    exact ⟨o', ho', rfl, .inl ⟨trivial, trivial⟩⟩
  · have hb : (m.env.txHash o'.ptx == porphan) = false := by simpa using hp
    simp only [hb, Bool.false_eq_true, if_false]
    exact ⟨o', ho', rfl, .inr ⟨hp, rfl⟩⟩

theorem map_setDepends (porphan : Uint256) (setDependsOn : Finset Uint256)
    (vOrphan : List (COrphan D)) :
    (m.setDepends porphan setDependsOn vOrphan).map (fun o => m.env.txHash o.ptx) =
      vOrphan.map fun o => m.env.txHash o.ptx := by
  rw [setDepends, map_map]
  refine map_congr_left fun o _ => ?_
  simp only [Function.comp_apply]
  split <;> rfl

section

variable {orphan : COrphan D} (h : QueueInv m mapDependers popped q) (ho : orphan ∈ q.vOrphan)
  (hne : orphan.setDependsOn ≠ ∅)
include h ho hne

/-- An orphan that has one dependency less goes on waiting. -/
theorem QueueInv.setDepends (setDependsOn : Finset Uint256) : QueueInv m mapDependers popped
      { q with vOrphan := m.setDepends (m.env.txHash orphan.ptx) setDependsOn q.vOrphan } := by
  refine ⟨h.popped_subset, h.nodup, h.eligible, ?_, ?_, ?_, ?_⟩
  · intro o hm
    obtain ⟨o', ho', hptx, -⟩ := mem_setDepends hm
    rw [hptx]
    exact h.orphan_eligible o' ho'
  · rw [orphans, map_setDepends]
    exact h.orphans_nodup
  · intro o hm hn
    obtain ⟨o', ho', hptx, ⟨hhash, -⟩ | ⟨-, rfl⟩⟩ := mem_setDepends hm
    · rw [hhash]
      exact h.waiting orphan ho hne
    · exact h.waiting o ho' hn
  · intro hash
    rw [orphans, map_setDepends]
    exact h.pointers hash

/-- An orphan whose last dependency is gone becomes an entry of the queue. -/
theorem QueueInv.push : QueueInv m mapDependers popped
      { q with
        vOrphan := m.setDepends (m.env.txHash orphan.ptx) ∅ q.vOrphan
        vecPriority := m.heap.push (txPriorityCompare m.ops q.fSortedByFee) q.vecPriority
          (orphan.dPriority, orphan.dFeePerKb, orphan.ptx) } := by
  have hset := h.setDepends ho hne ∅
  have hperm := m.heap.push_perm (txPriorityCompare m.ops q.fSortedByFee) q.vecPriority
    (orphan.dPriority, orphan.dFeePerKb, orphan.ptx)
  have hqueued : (popped ++ m.queued { q with
      vOrphan := m.setDepends (m.env.txHash orphan.ptx) ∅ q.vOrphan
      vecPriority := m.heap.push (txPriorityCompare m.ops q.fSortedByFee) q.vecPriority
        (orphan.dPriority, orphan.dFeePerKb, orphan.ptx) }).Perm
      (m.env.txHash orphan.ptx :: (popped ++ m.queued q)) :=
    ((hperm.map _).append_left popped).trans perm_middle
  refine ⟨h.popped_subset, ?_, ?_, hset.orphan_eligible, hset.orphans_nodup, ?_, hset.pointers⟩
  · rw [hqueued.nodup_iff, nodup_cons]
    exact ⟨h.waiting orphan ho hne, h.nodup⟩
  · intro t ht
    rcases mem_cons.mp (hperm.mem_iff.mp ht) with rfl | ht
    · exact h.orphan_eligible orphan ho
    · exact h.eligible t ht
  · intro o hm hn
    rw [hqueued.mem_iff, mem_cons, not_or]
    refine ⟨?_, hset.waiting o hm hn⟩
    intro he
    -- the orphan itself waits no longer
    obtain ⟨o', -, -, ⟨-, hempty⟩ | ⟨hother, -⟩⟩ := mem_setDepends hm
    · exact hn hempty
    · exact hother he

end

/-- The step lemma of the loop over the dependers. -/
theorem QueueInv.release (h : QueueInv m mapDependers popped q) (hash : Uint256)
    (hp : porphan ∈ m.orphans q) :
    ∃ q', m.release hash q porphan = .ok q' ∧ QueueInv m mapDependers popped q' ∧
      m.orphans q' = m.orphans q := by
  obtain ⟨o, ho, hhash⟩ := mem_map.mp hp
  obtain ⟨orphan, hfind⟩ : ∃ orphan, (q.vOrphan.find? fun o => m.env.txHash o.ptx == porphan) =
      some orphan := by
    rw [← Option.isSome_iff_exists, find?_isSome]
    exact ⟨o, ho, beq_iff_eq.mpr hhash⟩
  have hmem := mem_of_find?_eq_some hfind
  have hid : m.env.txHash orphan.ptx = porphan := by simpa using find?_some hfind
  subst hid
  rw [Miner.release, hfind]
  by_cases hempty : orphan.setDependsOn = ∅
  · refine ⟨q, ?_, h, rfl⟩
    simp [getOr, hempty, bind, Except.bind, pure, Except.pure]
  · by_cases hlast : orphan.setDependsOn.erase hash = ∅
    · refine ⟨_, ?_, h.push hmem hempty, ?_⟩
      · simp only [getOr, bind, Except.bind, pure, Except.pure, hempty, hlast, if_false, if_true]
        rfl
      · exact map_setDepends _ _ _
    · refine ⟨_, ?_, h.setDepends hmem hempty (orphan.setDependsOn.erase hash), ?_⟩
      · simp only [getOr, bind, Except.bind, pure, Except.pure, hempty, hlast, if_false]
        rfl
      · exact map_setDepends _ _ _

theorem QueueInv.releaseAll (hash : Uint256) {l : List Uint256}
    (h : QueueInv m mapDependers popped q) (hl : l ⊆ m.orphans q) :
    ∃ q', foldAll (m.release hash) q l = .ok q' ∧ QueueInv m mapDependers popped q' := by
  refine Exists.imp (fun _ h => ⟨h.1, h.2.1⟩) (exists_foldAll
    (I := fun q => QueueInv m mapDependers popped q ∧ l ⊆ m.orphans q) ⟨h, hl⟩ fun porphan hin q hq => ?_)
  obtain ⟨q₁, h₁, hinv, ho⟩ := hq.1.release hash (hq.2 hin)
  exact ⟨q₁, h₁, hinv, ho ▸ hq.2⟩

end QueueInv

/-! ## The main loop -/

theorem QueueInv.tryTx (hc : m.mempool.Checked m.env.crypto) (h : QueueInv m mapDependers popped q)
    (ht : m.InPool t.2.2) (s : Selected) :
    ∃ q' s', m.tryTx mapDependers q s t = .ok (q', s') ∧ QueueInv m mapDependers popped q' ∧
      (s' = s ∨ (m.isOverLimits s t.2.2 = false ∧ m.addTx s t.2.2 = .ok (some s'))) := by
  obtain ⟨dPriority, dFeePerKb, tx⟩ := t
  simp only [Miner.tryTx]
  split
  · exact ⟨q, s, rfl, h, .inl rfl⟩
  · next hskip =>
    rw [Bool.or_eq_true, not_or, Bool.not_eq_true] at hskip
    have hsort := h.sortByFee dPriority s tx
    obtain ⟨r, hadd⟩ := exists_addTx (ht.poolTx hc) s
    cases r with
    | none => exact ⟨_, s, bind_eq_ok.mpr ⟨none, hadd, rfl⟩, hsort, .inl rfl⟩
    | some s' =>
      obtain ⟨q', hr, hinv⟩ := QueueInv.releaseAll (m.env.txHash tx) hsort
        (hsort.pointers (m.env.txHash tx))
      refine ⟨q', s', ?_, hinv, .inr ⟨hskip.1, hadd⟩⟩
      exact bind_eq_ok.mpr ⟨some s', hadd, bind_eq_ok.mpr ⟨q', hr, rfl⟩⟩

/-- The main loop ends with an empty queue. What it has added are candidates, each once and none popped
before. -/
theorem QueueInv.collect (hc : m.mempool.Checked m.env.crypto) :
    ∀ (rounds : Nat) {popped : List Uint256} {q : Queue D} (s : Selected),
      QueueInv m mapDependers popped q → m.mempool.txs.length ≤ popped.length + rounds →
      selected.nBlockSize ≤ s.nBlockSize → selected.nBlockSigOps ≤ s.nBlockSigOps →
      ∃ q' s' txs, m.collect mapDependers rounds (q, s) = .ok (q', s') ∧ q'.vecPriority = [] ∧
        Picks m s txs s' ∧ (popped ++ txs.map m.env.txHash).Nodup
  | 0, popped, q, s, h, hlen, _, _ => by
    refine ⟨q, s, [], rfl, ?_, .nil s, by simpa using (nodup_append.mp h.nodup).1⟩
    -- otherwise the pool would have more transactions than it has
    cases hq : q.vecPriority with
    | nil => rfl
    | cons t rest =>
      obtain ⟨-, hpop⟩ := h.pop hq
      have hle := (subperm_of_subset (nodup_append.mp hpop.nodup).1
        hpop.popped_subset).length_le
      simp only [length_append, length_singleton, length_map] at hle
      omega
  | rounds + 1, popped, q, s, h, hlen, hsize, hsigOps => by
    cases hq : q.vecPriority with
    | nil =>
      refine ⟨q, s, [], ?_, hq, .nil s, by simpa using (nodup_append.mp h.nodup).1⟩
      rw [Miner.collect, hq]
    | cons t rest =>
      obtain ⟨hin, hpop⟩ := h.pop hq
      obtain ⟨q₁, s₁, htry, hinv, hs₁⟩ := hpop.tryTx hc hin.inPool s
      have hgrows : s.nBlockSize ≤ s₁.nBlockSize ∧ s.nBlockSigOps ≤ s₁.nBlockSigOps := by
        rcases hs₁ with rfl | ⟨-, hadd⟩
        · exact ⟨Nat.le_refl _, Nat.le_refl _⟩
        · exact addTx_grows hadd
      obtain ⟨q', s', txs, hcollect, hempty, hpicks, hnodup⟩ := QueueInv.collect hc rounds s₁ hinv
        (by simp only [length_append, length_singleton]; omega) (hsize.trans hgrows.1)
        (hsigOps.trans hgrows.2)
      have hrun : m.collect mapDependers (rounds + 1) (q, s) = .ok (q', s') := by
        rw [Miner.collect, hq]
        refine bind_eq_ok.mpr ⟨(q₁, s₁), ?_, hcollect⟩
        rw [← htry, hq]
      rw [append_assoc] at hnodup
      rcases hs₁ with rfl | ⟨hlimits, hadd⟩
      · refine ⟨q', s', txs, hrun, hempty, hpicks, ?_⟩
        exact hnodup.sublist ((sublist_cons_self _ _).append_left _)
      · have hcandidate := hin.isCandidate hsize hsigOps hlimits
        exact ⟨q', s', t.2.2 :: txs, hrun, hempty, .cons hin.inPool hcandidate hlimits hadd hpicks,
          hnodup⟩

/-! ## The scan of the pool -/

/-- "All transactions in the memory pool should connect to either transactions in the chain or other
transactions in the memory pool", says the source. One that does not is passed over, but if an input
before the missing one depends on the pool, `mapDependers` keeps a dangling pointer. -/
def Resolved (m : Miner D) : Prop :=
  ∀ tx ∈ m.mempool.txs,
    tx.isFinal ((m.pindexPrev.head?.map (·.nHeight)).getD 0) m.env.getAdjustedTime = true →
    (∀ txin ∈ tx.vin, m.InputResolved txin) ∨
      ∃ before txin after, tx.vin = before ++ txin :: after ∧ m.InputMissing txin ∧
        ∀ txin ∈ before, (readFromDisk m.env m.db txin.prevout).isSome = true

section Scan

variable (tx : CTransaction) {txin : CTxIn}

/-- One input: a pointer is added only together with a dependency. -/
theorem exists_scanInput {s : InputScan D} (hs : s.fMissingInputs = false)
    (hin : m.InputResolved txin) :
    ∃ s', m.scanInput tx s txin = .ok s' ∧ s'.fMissingInputs = false ∧
      (s.setDependsOn ≠ ∅ → s'.setDependsOn ≠ ∅) ∧
      ∀ hash, ∀ porphan ∈ s'.mapDependers hash,
        porphan ∈ s.mapDependers hash ∨ (porphan = m.env.txHash tx ∧ s'.setDependsOn ≠ ∅) := by
  rw [scanInput, if_neg (by simp [hs])]
  cases hread : readFromDisk m.env m.db txin.prevout with
  | some r => exact ⟨_, rfl, hs, id, fun _ _ => .inl⟩
  | none =>
    obtain ⟨txPrev, hl, hn⟩ := hin.resolve_left (by simp [hread])
    rw [hl]
    refine ⟨_, bind_eq_ok.mpr ⟨_, getOr_eq_ok.mpr (getElem?_eq_getElem hn), rfl⟩, hs,
      fun _ => Finset.insert_ne_empty _ _, fun hash porphan hp => ?_⟩
    dsimp only at hp
    split at hp
    · rcases mem_append.mp hp with hp | hp
      · exact .inl hp
      · exact .inr ⟨mem_singleton.mp hp, Finset.insert_ne_empty _ _⟩
    · exact .inl hp

theorem exists_scanInputs {vin : List CTxIn} {s : InputScan D} (hs : s.fMissingInputs = false)
    (h : ∀ txin ∈ vin, m.InputResolved txin) :
    ∃ s', foldAll (m.scanInput tx) s vin = .ok s' ∧ s'.fMissingInputs = false ∧
      ∀ hash, ∀ porphan ∈ s'.mapDependers hash,
        porphan ∈ s.mapDependers hash ∨ (porphan = m.env.txHash tx ∧ s'.setDependsOn ≠ ∅) := by
  refine exists_foldAll ⟨hs, fun _ _ => .inl⟩ fun txin hin s₁ ⟨hs₁, hp₁⟩ => ?_
  obtain ⟨s₂, h₂, hs₂, hd₂, hp₂⟩ := exists_scanInput tx hs₁ (h txin hin)
  refine ⟨s₂, h₂, hs₂, fun hash porphan hp => ?_⟩
  rcases hp₂ hash porphan hp with hp | hp
  · exact (hp₁ hash porphan hp).imp_right fun ⟨he, hd⟩ => ⟨he, hd₂ hd⟩
  · exact .inr hp

theorem scanInputs_of_missing {s : InputScan D} (hs : s.fMissingInputs) :
    ∀ vin : List CTxIn, foldAll (m.scanInput tx) s vin = .ok s
  | [] => rfl
  | _ :: vin => foldAll_cons_eq_ok.mpr ⟨s, if_pos hs, scanInputs_of_missing hs vin⟩

theorem exists_scanInputs_missing {before : List CTxIn} (after : List CTxIn)
    (hmissing : m.InputMissing txin) {s : InputScan D} (hs : s.fMissingInputs = false)
    (h : ∀ txin ∈ before, (readFromDisk m.env m.db txin.prevout).isSome) :
    ∃ s', foldAll (m.scanInput tx) s (before ++ txin :: after) = .ok s' ∧
      s'.fMissingInputs ∧ s'.mapDependers = s.mapDependers := by
  obtain ⟨s₁, h₁, hs₁, hp₁⟩ : ∃ s₁, foldAll (m.scanInput tx) s before = .ok s₁ ∧
      s₁.fMissingInputs = false ∧ s₁.mapDependers = s.mapDependers := by
    refine exists_foldAll ⟨hs, rfl⟩ fun txin hin s₁ ⟨hs₁, hp₁⟩ => ?_
    obtain ⟨⟨txindex, txout⟩, hread⟩ := Option.isSome_iff_exists.mp (h txin hin)
    rw [scanInput, if_neg (by simp [hs₁]), hread]
    exact ⟨_, rfl, hs₁, hp₁⟩
  refine ⟨{ s₁ with fMissingInputs := true }, foldAll_append_eq_ok.mpr ⟨s₁, h₁, ?_⟩, rfl, hp₁⟩
  refine foldAll_cons_eq_ok.mpr ⟨_, ?_, scanInputs_of_missing tx rfl after⟩
  rw [scanInput, if_neg (by simp [hs₁]), hmissing.1, hmissing.2]

variable {tx}

/-- What holds of the scan after the transactions with the txids `done`. -/
structure ScanInv (m : Miner D) (done : List Uint256) (s : Scan D) : Prop where
  subset : (s.vecPriority.map fun t => m.env.txHash t.2.2) ++
    (s.vOrphan.map fun o => m.env.txHash o.ptx) ⊆ done
  nodup : ((s.vecPriority.map fun t => m.env.txHash t.2.2) ++
    (s.vOrphan.map fun o => m.env.txHash o.ptx)).Nodup
  eligible : ∀ t ∈ s.vecPriority, m.Eligible t.2.2
  orphan_eligible : ∀ o ∈ s.vOrphan, m.Eligible o.ptx
  pointers : ∀ hash, s.mapDependers hash ⊆ s.vOrphan.map fun o => m.env.txHash o.ptx

variable {done : List Uint256}

/-- A transaction with all its inputs goes to the queue or to the waiting list. -/
theorem ScanInv.scanned {s : Scan D} {r : InputScan D} {nValueOut : Int64} (h : ScanInv m done s)
    (hin : m.Eligible tx) (hnew : m.env.txHash tx ∉ done) (hmissing : r.fMissingInputs = false)
    (hout : tx.getValueOut = .ok nValueOut)
    (hp : ∀ hash, ∀ porphan ∈ r.mapDependers hash, porphan ∈ s.mapDependers hash ∨ (porphan =
      m.env.txHash tx ∧ r.setDependsOn ≠ ∅)) :
    ∃ s', m.scanned tx s r = .ok s' ∧ ScanInv m (done ++ [m.env.txHash tx]) s' := by
  have hfresh : m.env.txHash tx ∉ (s.vecPriority.map fun t => m.env.txHash t.2.2) ++
      (s.vOrphan.map fun o => m.env.txHash o.ptx) := fun hm => hnew (h.subset hm)
  have hsub := List.Subset.trans h.subset (subset_append_left done [m.env.txHash tx])
  have hlast : m.env.txHash tx ∈ done ++ [m.env.txHash tx] := by simp
  simp only [bind, Except.bind, Miner.scanned, hmissing, hout, Bool.false_eq_true, if_false, pure,
    Except.pure]
  split
  · next hempty =>
    refine ⟨_, rfl, ?_, ?_, ?_, h.orphan_eligible, ?_⟩
    · rw [map_append, append_assoc]
      exact append_subset.mpr ⟨(append_subset.mp hsub).1,
        append_subset.mpr ⟨cons_subset.mpr ⟨hlast, nil_subset _⟩,
          (append_subset.mp hsub).2⟩⟩
    · rw [map_append, append_assoc]
      exact perm_middle.nodup_iff.mpr (nodup_cons.mpr ⟨hfresh, h.nodup⟩)
    · intro t ht
      rcases mem_append.mp ht with ht | ht
      · exact h.eligible t ht
      · rw [mem_singleton.mp ht]
        exact hin
    · intro hash porphan hm
      rcases hp hash porphan hm with hm | ⟨-, hne⟩
      · exact h.pointers hash hm
      · exact absurd hempty hne
  · refine ⟨_, rfl, ?_, ?_, h.eligible, ?_, ?_⟩
    · rw [map_append, ← append_assoc]
      exact append_subset.mpr ⟨hsub, cons_subset.mpr ⟨hlast, nil_subset _⟩⟩
    · rw [map_append, ← append_assoc]
      exact (perm_append_singleton _ _).nodup_iff.mpr (nodup_cons.mpr ⟨hfresh, h.nodup⟩)
    · intro o ho
      rcases mem_append.mp ho with ho | ho
      · exact h.orphan_eligible o ho
      · rw [mem_singleton.mp ho]
        exact hin
    · intro hash porphan hm
      rw [map_append, mem_append]
      rcases hp hash porphan hm with hm | ⟨he, -⟩
      · exact .inl (h.pointers hash hm)
      · exact .inr (mem_singleton.mpr he)

/-- One transaction of the pool goes to the queue, or to the orphans with its dependencies. -/
theorem ScanInv.scanTx (hc : m.mempool.Checked m.env.crypto) (hres : m.Resolved)
    (htx : tx ∈ m.mempool.txs) {s : Scan D} (h : ScanInv m done s) (hnew : m.env.txHash tx ∉ done) :
    ∃ s', m.scanTx s tx = .ok s' ∧ ScanInv m (done ++ [m.env.txHash tx]) s' := by
  have hin := inPool_of_mem hc htx
  have hsub := List.Subset.trans h.subset (subset_append_left done [m.env.txHash tx])
  have hsame : ScanInv m (done ++ [m.env.txHash tx]) s :=
    ⟨hsub, h.nodup, h.eligible, h.orphan_eligible, h.pointers⟩
  simp only [Miner.scanTx]
  split
  · exact ⟨s, rfl, hsame⟩
  · next hskip =>
    simp only [Bool.or_eq_true, Bool.not_eq_true', not_or, Bool.not_eq_false] at hskip
    rcases hres tx htx hskip.2 with hall | ⟨before, txin, after, hvin, hmissing, hbefore⟩
    · obtain ⟨r, hr, hno, hp⟩ := exists_scanInputs tx
        (s := ⟨∅, s.mapDependers, 0, m.ops.ofInt 0, false⟩) rfl hall
      obtain ⟨nValueOut, hout⟩ := CTransaction.exists_getValueOut (hin.poolTx hc).checked
      obtain ⟨s', hs', hinv⟩ := h.scanned ⟨hin, hskip.2, hall⟩ hnew hno hout hp
      exact ⟨s', bind_eq_ok.mpr ⟨r, hr, hs'⟩, hinv⟩
    · obtain ⟨r, hr, hyes, hp⟩ := exists_scanInputs_missing tx after hmissing
        (s := ⟨∅, s.mapDependers, 0, m.ops.ofInt 0, false⟩) rfl hbefore
      rw [hvin]
      refine ⟨s, bind_eq_ok.mpr ⟨r, hr, ?_⟩, hsame⟩
      rw [Miner.scanned, if_pos hyes, hp]

theorem ScanInv.scan (hc : m.mempool.Checked m.env.crypto) (hres : m.Resolved) {s : Scan D}
    (h : ScanInv m [] s) (hd : (m.mempool.txs.map m.env.txHash).Nodup) :
    ∃ s', foldAll m.scanTx s m.mempool.txs = .ok s' ∧
      ScanInv m (m.mempool.txs.map m.env.txHash) s' := by
  refine exists_foldAll_done (I := fun done => ScanInv m (done.map m.env.txHash)) h
    fun done tx rest s hall h => ?_
  rw [← hall, map_append, map_cons, nodup_append] at hd
  rw [map_append]
  exact h.scanTx hc hres (by simp [← hall]) fun hm => hd.2.2 _ hm _ mem_cons_self rfl

theorem ScanInv.queueInv {s : Scan D} (h : ScanInv m done s) :
    QueueInv m s.mapDependers [] (m.queue s) := by
  obtain ⟨hvec, horphan, hdisjoint⟩ := nodup_append.mp h.nodup
  have hinv : QueueInv m s.mapDependers [] ⟨s.vecPriority, false, s.vOrphan⟩ := by
    refine ⟨nil_subset _, hvec, h.eligible, h.orphan_eligible, horphan, ?_, h.pointers⟩
    intro o ho _ hm
    exact hdisjoint _ hm _ (mem_map_of_mem ho) rfl
  exact hinv.of_perm (m.heap.make_perm _ _) (m.args.nBlockPrioritySize == 0)

end Scan

/-- A block with the coinbase, the coinstake if there is one, and transactions of the pool added one
after the other. -/
structure IsTemplate (m : Miner D) (prev : CBlockIndex) (pblock : CBlock) (txs : List CTransaction)
    (s : Selected) : Prop where
  picks : Picks m selected txs s
  nodup : (txs.map m.env.txHash).Nodup
  nBits : pblock.nBits = getNextTargetRequired m.env.fTestNet m.pindexPrev m.fProofOfStake
  nNonce : pblock.nNonce = 0
  nTime : pblock.nTime = m.blockTime prev pblock.vtx
  vtx : pblock.vtx = m.txCoinBase pblock.nBits s.nFees :: (m.txCoinStake.toList ++ s.vtx)

/-- `CreateNewBlock` returns a template. -/
theorem exists_createNewBlock (hc : m.mempool.Checked m.env.crypto) (hres : m.Resolved)
    {prev : CBlockIndex} {pprev : PIndex} (hprev : m.pindexPrev = prev :: pprev) :
    ∃ pblock txs s, m.createNewBlock = .ok pblock ∧ IsTemplate m prev pblock txs s := by
  have hempty : ScanInv m [] ⟨[], fun _ => [], []⟩ :=
    ⟨nil_subset _, nodup_nil, by simp, by simp, fun _ => nil_subset _⟩
  obtain ⟨scan, hscan, hinv⟩ := hempty.scan hc hres (nodup_txs hc)
  obtain ⟨q, s, txs, hcollect, -, hpicks, hnodup⟩ := hinv.queueInv.collect hc m.mempool.txs.length
    selected (Nat.le_add_left _ _) (Nat.le_refl _) (Nat.le_refl _)
  let nBits := getNextTargetRequired m.env.fTestNet m.pindexPrev m.fProofOfStake
  let vtx := m.txCoinBase nBits s.nFees :: (m.txCoinStake.toList ++ s.vtx)
  refine ⟨{ CBlock.null with hashPrevBlock := prev.hashBlock, nTime := m.blockTime prev vtx, nBits, vtx },
    txs, s, ?_, ⟨hpicks, hnodup, rfl, rfl, rfl, rfl⟩⟩
  refine bind_eq_ok.mpr ⟨scan, hscan, bind_eq_ok.mpr ⟨(q, s), hcollect, ?_⟩⟩
  refine bind_eq_ok.mpr ⟨prev, ?_, rfl⟩
  rw [hprev]
  rfl

end Miner

end NovaCoin
