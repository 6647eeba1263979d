import NovaCoin.BestChain

/-!
# Consistency of the best chain

`Consistent` says that memory, the database and the `pnext` links describe one chain. Every path
through `AddToBlockIndex` keeps it but one: when `SetBestChain` has reorganized and then fails to
connect one of the blocks it had postponed, it takes the new block for the best one although
neither the database nor the links go that far.
-/

namespace NovaCoin

open Links List

def hashes (pindex : PIndex) : List Uint256 := pindex.map (·.hashBlock)

/-- Memory, database and links describe the same best chain. -/
structure Consistent (st : ChainState) : Prop where
  /-- `hashBestChain`, `pindexBest` and the database agree -/
  hashBestChain : st.hashBestChain = getBlockHash st.pindexBest
  known : st.mapBlockIndex st.hashBestChain = some st.pindexBest
  database : st.txdb.hashBestChain = st.hashBestChain
  /-- following `pnext` from the genesis block meets the ancestors of `pindexBest`, and no more -/
  path : ∀ n, st.pindexBest.length ≤ n →
    follow st.pnext n st.hashGenesisBlock = (hashes st.pindexBest).reverse
  /-- in the order of their heights -/
  heights : st.pindexBest.reverse.map (·.nHeight) = (List.range st.pindexBest.length).map Int.ofNat
  /-- other records have no `pnext`, and neither has `pindexBest` -/
  offPath : ∀ hash, (st.mapBlockIndex hash).isSome →
    hash ∉ hashes st.pindexBest ∨ hash = st.hashBestChain → st.pnext hash = none
  nBestHeight : st.nBestHeight = height st.pindexBest
  nBestChainTrust : st.nBestChainTrust = chainTrust st.pindexBest

/-! ## The invariant -/

/-- A record with its ancestors: hashes are different, heights count up from the root. -/
structure GoodIndex (pindex : PIndex) : Prop where
  ne_nil : pindex ≠ []
  nodup : (hashes pindex).Nodup
  heights : pindex.reverse.map (·.nHeight) = (List.range pindex.length).map Int.ofNat

/-- The database and the links have reached the chain that ends at `tip`. -/
structure AtTip (st : ChainState) (tip : PIndex) : Prop where
  hash : st.txdb.hashBestChain = getBlockHash tip
  batch : st.txdb.activeBatch = none
  pnext : st.pnext = links (hashes tip)

/-- The block index and the globals are the same. -/
structure SameIndex (st st' : ChainState) : Prop where
  mapBlockIndex : st'.mapBlockIndex = st.mapBlockIndex
  hashGenesisBlock : st'.hashGenesisBlock = st.hashGenesisBlock
  hashBestChain : st'.hashBestChain = st.hashBestChain
  pindexBest : st'.pindexBest = st.pindexBest
  nBestHeight : st'.nBestHeight = st.nBestHeight
  nBestChainTrust : st'.nBestChainTrust = st.nBestChainTrust

theorem SameIndex.refl (st : ChainState) : SameIndex st st := ⟨rfl, rfl, rfl, rfl, rfl, rfl⟩

theorem SameIndex.trans {st₁ st₂ st₃ : ChainState} (h : SameIndex st₁ st₂) (h' : SameIndex st₂ st₃) :
    SameIndex st₁ st₃ where
  mapBlockIndex := h'.mapBlockIndex.trans h.mapBlockIndex
  hashGenesisBlock := h'.hashGenesisBlock.trans h.hashGenesisBlock
  hashBestChain := h'.hashBestChain.trans h.hashBestChain
  pindexBest := h'.pindexBest.trans h.pindexBest
  nBestHeight := h'.nBestHeight.trans h.nBestHeight
  nBestChainTrust := h'.nBestChainTrust.trans h.nBestChainTrust

/-- What holds between calls. -/
structure Inv (st : ChainState) : Prop where
  good : ∀ hash pindex, st.mapBlockIndex hash = some pindex →
    GoodIndex pindex ∧ getBlockHash pindex = hash
  closed : ∀ hash pindex, st.mapBlockIndex hash = some pindex → ∀ h ∈ hashes pindex,
    (st.mapBlockIndex h).isSome
  best : st.mapBlockIndex st.hashBestChain = some st.pindexBest
  genesis : (hashes st.pindexBest).getLast? = some st.hashGenesisBlock
  tip : AtTip st st.pindexBest
  nBestHeight : st.nBestHeight = height st.pindexBest
  nBestChainTrust : st.nBestChainTrust = chainTrust st.pindexBest

variable {st st' : ChainState} {pfork pindex : PIndex} {out : Outcomes} {crypto : Crypto}

theorem Inv.consistent (h : Inv st) : Consistent st := by
  obtain ⟨hgood, hhash⟩ := h.good _ _ h.best
  have hlength : (hashes st.pindexBest).length = st.pindexBest.length := length_map _
  refine ⟨hhash.symm, h.best, by rw [h.tip.hash, hhash], ?_, hgood.heights, ?_, h.nBestHeight,
    h.nBestChainTrust⟩
  · intro n hn
    rw [h.tip.pnext]
    exact follow_links hgood.nodup h.genesis (hlength ▸ hn)
  · intro hash _ hoff
    rw [h.tip.pnext]
    refine links_of_notMem ?_
    rcases hoff with hoff | hbest
    · exact fun hm => hoff (mem_of_mem_tail hm)
    · -- the newest block of the chain is no parent on it
      rw [hbest, ← hhash]
      have hnodup := hgood.nodup
      cases hb : st.pindexBest with
      | nil => exact absurd hb hgood.ne_nil
      | cons p rest =>
        rw [hb] at hnodup
        exact (nodup_cons.mp hnodup).1

theorem inv_init (crypto : Crypto) (genesis : CBlock) (nFile nBlockPos : UInt32) :
    Inv (ChainState.init crypto genesis nFile nBlockPos) where
  good hash pindex hmap := by
    simp only [ChainState.init] at hmap
    split at hmap
    · next he =>
      cases hmap
      exact ⟨⟨by simp, by simp [hashes], by simp [newBlockIndex]⟩, he.symm⟩
    · cases hmap
  closed hash pindex hmap k hk := by
    simp only [ChainState.init] at hmap ⊢
    split at hmap
    · cases hmap
      simp only [hashes, map_cons, map_nil, mem_singleton] at hk
      rw [if_pos hk]
      rfl
    · cases hmap
  best := if_pos rfl
  genesis := rfl
  tip := ⟨rfl, rfl, rfl⟩
  nBestHeight := rfl
  nBestChainTrust := rfl

/-! ## The fork -/

theorem walkBack_suffix {nHeight : Int} : ∀ {plonger pindex : PIndex},
    walkBack nHeight plonger = some pindex → pindex <:+ plonger
  | [], _, h => by cases h
  | p :: pprev, pindex, h => by
    rw [walkBack] at h
    split at h
    · exact (walkBack_suffix h).trans (suffix_cons p pprev)
    · cases h
      exact suffix_refl _

/-- The fork is a common ancestor. -/
theorem findFork_suffix : ∀ {pindex plonger pfork : PIndex}, findFork pindex plonger = some pfork →
    pfork <:+ pindex ∧ pfork <:+ plonger ∧ pfork ≠ []
  | [], _, _, h => by cases h
  | p :: pprev, plonger, pfork, h => by
    rw [findFork] at h
    split at h
    · next he =>
      cases h
      rw [← he]
      exact ⟨suffix_refl _, suffix_refl _, by simp⟩
    · split at h
      · cases h
      · next q hq =>
        split at h
        · next he =>
          cases h
          exact ⟨by rw [he], walkBack_suffix hq, by simp [← he]⟩
        · obtain ⟨h₁, h₂, h₃⟩ := findFork_suffix h
          exact ⟨h₁.trans (suffix_cons p pprev), h₂.trans (walkBack_suffix hq), h₃⟩

/-! ## Links -/

theorem setPnext_sameIndex (st : ChainState) (pindex : PIndex) (v : Option Uint256) :
    SameIndex st (setPnext st pindex v) ∧ (setPnext st pindex v).txdb = st.txdb := by
  unfold setPnext
  split
  · exact ⟨⟨rfl, rfl, rfl, rfl, rfl, rfl⟩, rfl⟩
  · exact ⟨SameIndex.refl st, rfl⟩

theorem setPnext_pnext (st : ChainState) (p prev : CBlockIndex) (pprev : PIndex)
    (v : Option Uint256) :
    (setPnext st (p :: prev :: pprev) v).pnext = set st.pnext prev.hashBlock v := rfl

theorem foldl_setPnext_sameIndex (v : PIndex → Option Uint256) (l : List PIndex) (st : ChainState) :
    SameIndex st (l.foldl (fun st pindex => setPnext st pindex (v pindex)) st) ∧
      (l.foldl (fun st pindex => setPnext st pindex (v pindex)) st).txdb = st.txdb := by
  refine foldlRecOn (motive := fun st' => SameIndex st st' ∧ st'.txdb = st.txdb) l _
    ⟨SameIndex.refl st, rfl⟩ ?_
  rintro st' ⟨h₁, ht₁⟩ pindex -
  obtain ⟨h₂, ht₂⟩ := setPnext_sameIndex st' pindex (v pindex)
  exact ⟨h₁.trans h₂, ht₂.trans ht₁⟩

theorem suffix_tail_of_ne {p : CBlockIndex} {rest : PIndex} (hs : pfork <:+ p :: rest)
    (hne : p :: rest ≠ pfork) (hnil : pfork ≠ []) :
    pfork <:+ rest ∧ ∃ prev pprev, rest = prev :: pprev := by
  rcases suffix_cons_iff.mp hs with he | hs
  · exact absurd he.symm hne
  · cases rest with
    | nil => exact absurd (suffix_nil.mp hs) hnil
    | cons prev pprev => exact ⟨hs, prev, pprev, rfl⟩

section Path

variable {P : PIndex → ChainState → Prop} (hnil : pfork ≠ [])
include hnil

/-- The links of the shorter branch are cleared, down to the fork. -/
theorem disconnect_path (hstep : ∀ {p prev pprev st}, P (p :: prev :: pprev) st →
    P (prev :: pprev) (setPnext st (p :: prev :: pprev) none)) :
    ∀ {pindex : PIndex} {st : ChainState}, pfork <:+ pindex → P pindex st →
      P pfork ((pathTo pfork pindex).foldl (fun st pindex => setPnext st pindex none) st)
  | [], _, hs, _ => absurd (suffix_nil.mp hs) hnil
  | p :: rest, st, hs, h => by
    rw [pathTo]
    split
    · next he =>
      rw [← he]
      exact h
    · next hne =>
      obtain ⟨hs', prev, pprev, rfl⟩ := suffix_tail_of_ne hs hne hnil
      exact disconnect_path hstep hs' (hstep h)

theorem connect_path (hstep : ∀ {p prev pprev st}, P (prev :: pprev) st →
    P (p :: prev :: pprev) (setPnext st (p :: prev :: pprev) (some p.hashBlock))) :
    ∀ {pindex : PIndex} {st : ChainState}, pfork <:+ pindex → P pfork st →
      P pindex ((pathTo pfork pindex).reverse.foldl
        (fun st pindex => setPnext st pindex (some (getBlockHash pindex))) st)
  | [], _, hs, _ => absurd (suffix_nil.mp hs) hnil
  | p :: rest, st, hs, h => by
    rw [pathTo]
    split
    · next he =>
      rw [he]
      exact h
    · next hne =>
      obtain ⟨hs', prev, pprev, rfl⟩ := suffix_tail_of_ne hs hne hnil
      rw [reverse_cons, foldl_append, foldl_cons]
      exact hstep (connect_path hstep hs' h)

end Path

theorem relink_sameIndex (st : ChainState) (pfork pindexNew : PIndex) :
    SameIndex st (relink st pfork pindexNew) ∧ (relink st pfork pindexNew).txdb = st.txdb := by
  have h₁ := foldl_setPnext_sameIndex (fun _ => none) (pathTo pfork st.pindexBest) st
  have h₂ := foldl_setPnext_sameIndex (fun pindex => some (getBlockHash pindex))
    (pathTo pfork pindexNew).reverse
    ((pathTo pfork st.pindexBest).foldl (fun st pindex => setPnext st pindex none) st)
  exact ⟨h₁.1.trans h₂.1, h₂.2.trans h₁.2⟩

/-! ## Steps of a switch -/

theorem canReorganize_eq_some {pindexBest pindexNew : PIndex}
    (h : canReorganize out pindexBest pindexNew = some pfork) :
    pfork <:+ pindexBest ∧ pfork <:+ pindexNew ∧ pfork ≠ [] := by
  unfold canReorganize at h
  split at h
  · cases h
  · next q hfork =>
    split at h
    · cases h
      exact findFork_suffix hfork
    · cases h

/-- `Reorganize` takes the database and the links to the new tip. -/
theorem reorganize_eq_some {pindexNew : PIndex} (h : reorganize out st pindexNew = some st')
    (hd : (hashes st.pindexBest).Nodup) (hbatch : st.txdb.activeBatch = some none)
    (hp : st.pnext = links (hashes st.pindexBest)) :
    SameIndex st st' ∧ AtTip st' pindexNew ∧ ∃ pfork, pfork <:+ st.pindexBest ∧
      pfork <:+ pindexNew ∧ pfork ≠ [] := by
  unfold reorganize at h
  split at h
  · cases h
  · next pfork hcan =>
    cases h
    obtain ⟨hs₁, hs₂, hnil⟩ := canReorganize_eq_some hcan
    obtain ⟨hsame, htxdb⟩ := relink_sameIndex { st with
      txdb := (st.txdb.writeHashBestChain (getBlockHash pindexNew)).txnCommit true } pfork pindexNew
    have hdisk : (st.txdb.writeHashBestChain (getBlockHash pindexNew)).txnCommit true =
        ⟨getBlockHash pindexNew, none⟩ := by
      simp [CTxDB.writeHashBestChain, CTxDB.txnCommit, hbatch]
    refine ⟨{ hsame with }, ⟨?_, ?_, ?_⟩, pfork, hs₁, hs₂, hnil⟩
    · rw [htxdb, hdisk]
    · rw [htxdb, hdisk]
    · refine connect_path (P := fun pindex st => st.pnext = links (hashes pindex)) hnil
        (fun h => by rw [setPnext_pnext, h]; rfl) hs₂ ?_
      exact (disconnect_path
        (P := fun pindex st => (hashes pindex).Nodup ∧ st.pnext = links (hashes pindex)) hnil
        (fun h => ⟨(nodup_cons.mp h.1).2, by rw [setPnext_pnext, h.2]; exact set_links_none h.1⟩)
        hs₁ ⟨hd, by exact hp⟩).2

/-- A postponed block can be read, connected and committed. -/
def attaches (out : Outcomes) (pindex : PIndex) : Bool :=
  out.readFromDisk (getBlockHash pindex) && out.connectBlock (getBlockHash pindex) &&
    out.commit (getBlockHash pindex)

theorem invalidChainFound_same (st : ChainState) (pindex : PIndex) :
    SameIndex st (invalidChainFound st pindex) ∧ (invalidChainFound st pindex).txdb = st.txdb ∧
      (invalidChainFound st pindex).pnext = st.pnext := by
  unfold invalidChainFound
  split
  · exact ⟨⟨rfl, rfl, rfl, rfl, rfl, rfl⟩, rfl, rfl⟩
  · exact ⟨SameIndex.refl st, rfl, rfl⟩

/-- `SetBestChainInner` goes on to the block or stays at its parent. -/
theorem setBestChainInner_spec (out : Outcomes) (p : CBlockIndex) {base : PIndex} (hnil : base ≠ [])
    (ht : AtTip st base) :
    let r := setBestChainInner out { st with txdb := st.txdb.txnBegin } (p :: base)
    SameIndex st r.1 ∧
      r.2 = (out.connectBlock (getBlockHash (p :: base)) && out.commit (getBlockHash (p :: base))) ∧
      AtTip r.1 (if r.2 then p :: base else base) := by
  obtain ⟨prev, pprev, rfl⟩ := exists_cons_of_ne_nil hnil
  intro r
  simp only [r, setBestChainInner]
  cases hc : out.connectBlock (getBlockHash (p :: prev :: pprev)) with
  | false =>
    obtain ⟨hs, htxdb, hpnext⟩ := invalidChainFound_same
      { st with txdb := st.txdb.txnBegin.txnAbort } (p :: prev :: pprev)
    refine ⟨{ hs with }, rfl, ⟨?_, ?_, ?_⟩⟩
    · exact (congrArg CTxDB.hashBestChain htxdb).trans ht.hash
    · exact congrArg CTxDB.activeBatch htxdb
    · exact hpnext.trans ht.pnext
  | true =>
    cases hm : out.commit (getBlockHash (p :: prev :: pprev)) with
    | false => exact ⟨⟨rfl, rfl, rfl, rfl, rfl, rfl⟩, rfl, ⟨ht.hash, rfl, ht.pnext⟩⟩
    | true =>
      refine ⟨⟨rfl, rfl, rfl, rfl, rfl, rfl⟩, rfl, ⟨rfl, rfl, ?_⟩⟩
      show set st.pnext prev.hashBlock _ = _
      rw [ht.pnext]
      rfl

/-- Each block of the list is a child of the one before it, the first a child of `base`. -/
def Extends : PIndex → List PIndex → Prop
  | _, [] => True
  | base, pindex :: l => (∃ p, pindex = p :: base) ∧ Extends pindex l

def newest (base : PIndex) : List PIndex → PIndex
  | [] => base
  | pindex :: l => newest pindex l

theorem Extends.suffix : ∀ {l : List PIndex} {base : PIndex}, Extends base l → base <:+ newest base l
  | [], base, _ => suffix_refl base
  | pindex :: l, base, h => by
    obtain ⟨⟨p, rfl⟩, hl⟩ := h
    exact (suffix_cons p base).trans hl.suffix

theorem Extends.concat : ∀ {l : List PIndex} {base : PIndex}, Extends base l →
    (∃ p, pindex = p :: newest base l) →
    Extends base (l ++ [pindex]) ∧ newest base (l ++ [pindex]) = pindex
  | [], _, _, hp => ⟨⟨hp, trivial⟩, rfl⟩
  | _ :: _, _, h, hp => by
    obtain ⟨hl, hn⟩ := h.2.concat hp
    exact ⟨⟨h.1, hl⟩, hn⟩

theorem postpone_spec (nBestTrust : Uint256) : ∀ {pindexNew : PIndex}, pindexNew ≠ [] →
    (postpone nBestTrust pindexNew).2 ≠ [] ∧
      Extends (postpone nBestTrust pindexNew).2 (postpone nBestTrust pindexNew).1.reverse ∧
      newest (postpone nBestTrust pindexNew).2 (postpone nBestTrust pindexNew).1.reverse = pindexNew
  | [], h => absurd rfl h
  | [p], _ => ⟨by simp [postpone], trivial, rfl⟩
  | p :: prev :: pprev, _ => by
    rw [postpone]
    split
    · obtain ⟨hnil, he, hn⟩ := postpone_spec nBestTrust (cons_ne_nil prev pprev)
      have hchild : ∃ q, p :: prev :: pprev = q :: newest _ _ := ⟨p, by rw [hn]⟩
      obtain ⟨he', hn'⟩ := he.concat hchild
      rw [reverse_cons]
      exact ⟨hnil, he', hn'⟩
    · exact ⟨by simp, trivial, rfl⟩

/-- The loop over the postponed blocks: to the end if all can be attached, else it stops before. -/
theorem connectFurther_spec :
    ∀ {l : List PIndex} {st : ChainState} {base : PIndex}, base ≠ [] → AtTip st base →
      Extends base l → SameIndex st (connectFurther out st l) ∧ ∃ tip,
        AtTip (connectFurther out st l) tip ∧
        (l.all (attaches out) → tip = newest base l) ∧
        (l.all (attaches out) = false → tip ≠ [] ∧ tip <:+ (newest base l).tail)
  | [], st, base, _, ht, _ => ⟨SameIndex.refl st, base, ht, fun _ => rfl, fun h => by cases h⟩
  | _ :: l, st, base, hnil, ht, ⟨⟨p, rfl⟩, hl⟩ => by
    have htail : base <:+ (newest (p :: base) l).tail := by
      obtain ⟨l', hl'⟩ := hl.suffix
      rw [← hl']
      cases l' with
      | nil => exact suffix_refl base
      | cons q l' => exact ⟨l' ++ [p], by simp⟩
    rw [connectFurther]
    cases hr : out.readFromDisk (getBlockHash (p :: base)) with
    | false =>
      refine ⟨SameIndex.refl st, base, ht, ?_, fun _ => ⟨hnil, htail⟩⟩
      simp [attaches, hr]
    | true =>
      obtain ⟨hs, hok, htip⟩ := setBestChainInner_spec out p hnil ht
      simp only [Bool.not_true, Bool.false_eq_true, if_false]
      cases hb : (setBestChainInner out { st with txdb := st.txdb.txnBegin } (p :: base)).2 with
      | false =>
        rw [hb] at hok htip
        refine ⟨hs, base, htip, ?_, fun _ => ⟨hnil, htail⟩⟩
        simp [attaches, hr, ← hok]
      | true =>
        rw [hb] at hok htip
        obtain ⟨hs', tip, ht', hall, hnot⟩ := connectFurther_spec (by simp) htip hl
        have hp : attaches out (p :: base) := by
          rw [attaches, hr, Bool.true_and, ← hok]
        rw [all_cons, hp]
        exact ⟨hs.trans hs', tip, ht', hall, hnot⟩

/-! ## Calls -/

theorem Inv.of_sameIndex (h : Inv st) (hs : SameIndex st st') (ht : AtTip st' st.pindexBest) :
    Inv st' where
  good := by rw [hs.mapBlockIndex]; exact h.good
  closed := by rw [hs.mapBlockIndex]; exact h.closed
  best := by rw [hs.mapBlockIndex, hs.hashBestChain, hs.pindexBest]; exact h.best
  genesis := by rw [hs.pindexBest, hs.hashGenesisBlock]; exact h.genesis
  tip := by rw [hs.pindexBest]; exact ht
  nBestHeight := by rw [hs.nBestHeight, hs.pindexBest]; exact h.nBestHeight
  nBestChainTrust := by rw [hs.nBestChainTrust, hs.pindexBest]; exact h.nBestChainTrust

theorem Inv.setBest (h : Inv st) (hs : SameIndex st st') {pindexNew : PIndex}
    (hmap : st.mapBlockIndex (getBlockHash pindexNew) = some pindexNew)
    (hgenesis : (hashes pindexNew).getLast? = some st.hashGenesisBlock) (ht : AtTip st' pindexNew) :
    Inv (setBest st' pindexNew) where
  good := by
    show ∀ hash pindex, st'.mapBlockIndex hash = some pindex → _
    rw [hs.mapBlockIndex]
    exact h.good
  closed := by
    show ∀ hash pindex, st'.mapBlockIndex hash = some pindex → ∀ h ∈ hashes pindex,
      (st'.mapBlockIndex h).isSome
    rw [hs.mapBlockIndex]
    exact h.closed
  best := by
    show st'.mapBlockIndex (getBlockHash pindexNew) = some pindexNew
    rw [hs.mapBlockIndex]
    exact hmap
  genesis := by
    show (hashes pindexNew).getLast? = some st'.hashGenesisBlock
    rw [hs.hashGenesisBlock]
    exact hgenesis
  tip := { ht with }
  nBestHeight := rfl
  nBestChainTrust := rfl

theorem getLast?_hashes_of_suffix (hs : pfork <:+ pindex) (hnil : pfork ≠ []) :
    (hashes pindex).getLast? = (hashes pfork).getLast? := by
  obtain ⟨l, rfl⟩ := hs
  rw [hashes, map_append]
  exact getLast?_append_of_ne_nil _ (by simpa [hashes] using hnil)

theorem not_consistent_setBest {pindexNew tip : PIndex} (ht : AtTip st tip)
    (hd : (hashes pindexNew).Nodup) (hnil : tip ≠ []) (hs : tip <:+ pindexNew.tail) :
    ¬ Consistent (setBest st pindexNew) := by
  intro hc
  have hdisk : getBlockHash tip = getBlockHash pindexNew := ht.hash.symm.trans hc.database
  obtain ⟨t, tip, rfl⟩ := exists_cons_of_ne_nil hnil
  cases pindexNew with
  | nil => exact absurd (suffix_nil.mp hs) hnil
  | cons p rest =>
    have hmem : p.hashBlock ∈ hashes rest := by
      have ht : t.hashBlock ∈ hashes rest := mem_map_of_mem (hs.subset mem_cons_self)
      rwa [show t.hashBlock = p.hashBlock from hdisk] at ht
    exact (nodup_cons.mp hd).1 hmem

section Switch

variable (out : Outcomes) {hashPrevBlock : Uint256} {p : CBlockIndex} {pprev : PIndex} (h : Inv st)
  (hmap : st.mapBlockIndex (getBlockHash (p :: pprev)) = some (p :: pprev))

include h hmap

theorem setBestChain_extend (hprev : pprev = (st.mapBlockIndex hashPrevBlock).getD [])
    (hext : hashPrevBlock = st.hashBestChain) :
    Inv (setBestChain out st hashPrevBlock (p :: pprev)).1 := by
  obtain ⟨hgood, -⟩ := h.good _ _ h.best
  rw [hext, h.best, Option.getD_some] at hprev
  subst hprev
  obtain ⟨hs, -, ht⟩ := setBestChainInner_spec out p hgood.ne_nil h.tip
  have hswitch : switchChain out st hashPrevBlock (p :: st.pindexBest) =
      setBestChainInner out { st with txdb := st.txdb.txnBegin } (p :: st.pindexBest) := by
    exact if_pos hext
  rw [setBestChain, hswitch]
  cases hr : setBestChainInner out { st with txdb := st.txdb.txnBegin } (p :: st.pindexBest) with
  | mk st' ok =>
    rw [hr] at hs ht
    cases ok with
    | false => exact h.of_sameIndex hs ht
    | true =>
      refine h.setBest hs hmap ?_ ht
      rw [getLast?_hashes_of_suffix (suffix_cons p st.pindexBest) hgood.ne_nil]
      exact h.genesis

/-- Switching to another branch: the new block is reached, or nothing changes, or a postponed block
fails and the result is not consistent. -/
theorem setBestChain_switch (hne : hashPrevBlock ≠ st.hashBestChain) :
    (((canReorganize out st.pindexBest (postpone (chainTrust st.pindexBest) (p :: pprev)).2).isSome →
      (postpone (chainTrust st.pindexBest) (p :: pprev)).1.reverse.all (attaches out)) →
      Inv (setBestChain out st hashPrevBlock (p :: pprev)).1) ∧
    ((canReorganize out st.pindexBest (postpone (chainTrust st.pindexBest) (p :: pprev)).2).isSome →
      (postpone (chainTrust st.pindexBest) (p :: pprev)).1.reverse.all (attaches out) = false →
      ¬ Consistent (setBestChain out st hashPrevBlock (p :: pprev)).1) := by
  obtain ⟨hbest, -⟩ := h.good _ _ h.best
  obtain ⟨hnew, -⟩ := h.good _ _ hmap
  obtain ⟨hnil, hext, hnewest⟩ := postpone_spec (chainTrust st.pindexBest) (cons_ne_nil p pprev)
  have hsuffix := hext.suffix
  rw [hnewest] at hsuffix
  rw [setBestChain]
  simp only [switchChain, if_neg hne]
  cases hr : reorganize out { st with txdb := st.txdb.txnBegin }
      (postpone (chainTrust st.pindexBest) (p :: pprev)).2 with
  | none =>
    -- nothing was committed
    have hcan : canReorganize out st.pindexBest
        (postpone (chainTrust st.pindexBest) (p :: pprev)).2 = none := by
      simp only [reorganize] at hr
      split at hr
      · next hc => exact hc
      · cases hr
    obtain ⟨hs, htxdb, hpnext⟩ := invalidChainFound_same
      { st with txdb := st.txdb.txnBegin.txnAbort } (p :: pprev)
    constructor
    · intro _
      refine h.of_sameIndex { hs with } ⟨?_, ?_, ?_⟩
      · exact (congrArg CTxDB.hashBestChain htxdb).trans h.tip.hash
      · exact congrArg CTxDB.activeBatch htxdb
      · exact hpnext.trans h.tip.pnext
    · intro hsome
      rw [hcan] at hsome
      cases hsome
  | some st' =>
    have hcan : (canReorganize out st.pindexBest
        (postpone (chainTrust st.pindexBest) (p :: pprev)).2).isSome := by
      simp only [reorganize] at hr
      split at hr
      · cases hr
      · next hc =>
        rw [hc]
        rfl
    obtain ⟨hs, ht, pfork, hf₁, hf₂, hfnil⟩ := reorganize_eq_some hr hbest.nodup rfl h.tip.pnext
    have hs' : SameIndex st st' := { hs with }
    obtain ⟨hs₂, tip, htip, hall, hnot⟩ := connectFurther_spec hnil ht hext
    rw [hnewest] at hall hnot
    constructor
    · intro hok
      rw [hall (hok hcan)] at htip
      refine h.setBest (hs'.trans hs₂) hmap ?_ htip
      rw [getLast?_hashes_of_suffix (hf₂.trans hsuffix) hfnil, ← getLast?_hashes_of_suffix hf₁ hfnil]
      exact h.genesis
    · intro _ hfail
      exact not_consistent_setBest htip hnew.nodup (hnot hfail).1 (hnot hfail).2

end Switch

theorem goodIndex_newBlockIndex {b : CBlock} {nFile nBlockPos : UInt32} {pprev : PIndex}
    (hprev : pprev = [] ∨ GoodIndex pprev) (hnew : crypto.blockHash b ∉ hashes pprev) :
    GoodIndex (newBlockIndex crypto pprev b nFile nBlockPos :: pprev) := by
  rcases hprev with rfl | hgood
  · exact ⟨by simp, by simp [hashes], by simp [newBlockIndex]⟩
  · refine ⟨by simp, nodup_cons.mpr ⟨hnew, hgood.nodup⟩, ?_⟩
    rw [reverse_cons, map_append, hgood.heights, length_cons, range_succ, map_append, map_singleton]
    congr 2
    -- the height of the parent is its number of ancestors
    obtain ⟨p, rest, rfl⟩ := exists_cons_of_ne_nil hgood.ne_nil
    have hlast := congrArg getLast? hgood.heights
    rw [reverse_cons, map_append, map_singleton, getLast?_concat, length_cons, range_succ,
      map_append, map_singleton, getLast?_concat] at hlast
    simp [newBlockIndex, height, hlast]

theorem Inv.insert (h : Inv st) {pindexNew : PIndex} {hash : Uint256}
    (hfresh : st.mapBlockIndex hash = none) (hgood : GoodIndex pindexNew)
    (hhash : getBlockHash pindexNew = hash)
    (hclosed : ∀ k ∈ hashes pindexNew.tail, (st.mapBlockIndex k).isSome) :
    Inv { st with mapBlockIndex := fun k => if k = hash then some pindexNew
      else st.mapBlockIndex k } where
  good k pindex hmap := by
    simp only at hmap
    split at hmap
    · next he =>
      cases hmap
      exact ⟨hgood, hhash.trans he.symm⟩
    · exact h.good k pindex hmap
  closed k pindex hmap k' hk' := by
    simp only at hmap ⊢
    split
    · rfl
    · next hne =>
      split at hmap
      · cases hmap
        obtain ⟨p, rest, rfl⟩ := exists_cons_of_ne_nil hgood.ne_nil
        rcases mem_cons.mp hk' with he | hm
        · exact absurd (he.trans hhash) hne
        · exact hclosed k' hm
      · exact h.closed k pindex hmap k' hk'
  best := by
    have hne : st.hashBestChain ≠ hash := by
      intro he
      have hbest := h.best
      rw [he, hfresh] at hbest
      cases hbest
    exact (if_neg hne).trans h.best
  genesis := h.genesis
  tip := { h.tip with }
  nBestHeight := h.nBestHeight
  nBestChainTrust := h.nBestChainTrust

/-! ## Runs -/

/-- A call of `AddToBlockIndex` with the outcomes of what it tries. -/
structure Call where
  b : CBlock
  nFile : UInt32
  nBlockPos : UInt32
  out : Outcomes

namespace Call

variable (crypto : Crypto) (st : ChainState) (c : Call)

def step : ChainState := (addToBlockIndex crypto st c.b c.nFile c.nBlockPos c.out).1

def pindexNew : PIndex :=
  let pprev := (st.mapBlockIndex c.b.hashPrevBlock).getD []
  newBlockIndex crypto pprev c.b c.nFile c.nBlockPos :: pprev

def inserted : ChainState :=
  { st with mapBlockIndex := fun k => if k = crypto.blockHash c.b then some (c.pindexNew crypto st)
      else st.mapBlockIndex k }

theorem step_eq : c.step crypto st =
    if (st.mapBlockIndex (crypto.blockHash c.b)).isSome || !c.out.indexOk then st
    else if !c.out.commitIndex then c.inserted crypto st
    else if st.nBestChainTrust < chainTrust (c.pindexNew crypto st) then
      (setBestChain c.out (c.inserted crypto st) c.b.hashPrevBlock (c.pindexNew crypto st)).1
    else c.inserted crypto st := by
  rw [step, addToBlockIndex]
  split
  · rfl
  · split
    · rfl
    · show (if st.nBestChainTrust < chainTrust (c.pindexNew crypto st) then _ else _ :
        ChainState × Bool).1 = _
      split <;> rfl

/-- The call comes to postponed blocks: the block is new, has more trust than the best chain and is
not on top of it, and the switch to the first such block succeeds. -/
def Postpones : Prop :=
  st.mapBlockIndex (crypto.blockHash c.b) = none ∧ c.out.indexOk = true ∧
    c.out.commitIndex = true ∧ st.nBestChainTrust < chainTrust (c.pindexNew crypto st) ∧
    c.b.hashPrevBlock ≠ st.hashBestChain ∧
    (canReorganize c.out st.pindexBest
      (postpone (chainTrust st.pindexBest) (c.pindexNew crypto st)).2).isSome

/-- All postponed blocks can be read, connected and committed. -/
def PostponedOk : Prop :=
  c.Postpones crypto st →
    ∀ pindex ∈ (postpone (chainTrust st.pindexBest) (c.pindexNew crypto st)).1,
      attaches c.out pindex = true

end Call

section Step

variable (h : Inv st) (c : Call) (hfresh : st.mapBlockIndex (crypto.blockHash c.b) = none)

include h hfresh

theorem Call.inv_inserted : Inv (c.inserted crypto st) := by
  -- the parent is a known block or none
  have hprev : (st.mapBlockIndex c.b.hashPrevBlock).getD [] = [] ∨
      GoodIndex ((st.mapBlockIndex c.b.hashPrevBlock).getD []) := by
    cases hm : st.mapBlockIndex c.b.hashPrevBlock with
    | none => exact .inl rfl
    | some pprev => exact .inr (h.good _ _ hm).1
  have hclosed : ∀ k ∈ hashes ((st.mapBlockIndex c.b.hashPrevBlock).getD []),
      (st.mapBlockIndex k).isSome := by
    cases hm : st.mapBlockIndex c.b.hashPrevBlock with
    | none => simp [hashes]
    | some pprev => exact h.closed _ _ hm
  have hnotMem : crypto.blockHash c.b ∉ hashes ((st.mapBlockIndex c.b.hashPrevBlock).getD []) := by
    intro hm
    have hsome := hclosed _ hm
    rw [hfresh] at hsome
    cases hsome
  exact h.insert hfresh (goodIndex_newBlockIndex hprev hnotMem) rfl hclosed

/-- `SetBestChain` on top of the best block. -/
theorem Call.inv_extend (hext : c.b.hashPrevBlock = st.hashBestChain) :
    Inv (setBestChain c.out (c.inserted crypto st) c.b.hashPrevBlock (c.pindexNew crypto st)).1 := by
  have hne : c.b.hashPrevBlock ≠ crypto.blockHash c.b := by
    intro he
    have hbest := h.best
    rw [← hext, he, hfresh] at hbest
    cases hbest
  refine setBestChain_extend c.out (c.inv_inserted h hfresh) (if_pos rfl) ?_ hext
  rw [show (c.inserted crypto st).mapBlockIndex c.b.hashPrevBlock = _ from if_neg hne]

end Step

/-- The step lemma: a call keeps the invariant exactly if its postponed blocks go through. -/
theorem step_inv_iff (h : Inv st) (c : Call) :
    (c.PostponedOk crypto st → Inv (c.step crypto st)) ∧
      (¬ c.PostponedOk crypto st → ¬ Consistent (c.step crypto st)) := by
  -- a call that does not come to postponed blocks has to keep the invariant
  have hkeep : (c.Postpones crypto st → False) → Inv (c.step crypto st) →
      (c.PostponedOk crypto st → Inv (c.step crypto st)) ∧
        (¬ c.PostponedOk crypto st → ¬ Consistent (c.step crypto st)) :=
    fun hno hi => ⟨fun _ => hi, fun hnot => absurd (fun hp => absurd hp hno) hnot⟩
  by_cases hknown : ((st.mapBlockIndex (crypto.blockHash c.b)).isSome || !c.out.indexOk)
  · refine hkeep (fun hp => ?_) (by rw [c.step_eq, if_pos hknown]; exact h)
    simp [hp.1, hp.2.1] at hknown
  have hfresh : st.mapBlockIndex (crypto.blockHash c.b) = none ∧ c.out.indexOk := by
    simpa using hknown
  have hinv := c.inv_inserted h hfresh.1
  by_cases hcommit : (!c.out.commitIndex)
  · refine hkeep (fun hp => ?_) (by rw [c.step_eq, if_neg hknown, if_pos hcommit]; exact hinv)
    simp [hp.2.2.1] at hcommit
  by_cases htrust : st.nBestChainTrust < chainTrust (c.pindexNew crypto st)
  · have hstep : c.step crypto st = (setBestChain c.out (c.inserted crypto st) c.b.hashPrevBlock
        (c.pindexNew crypto st)).1 := by
      rw [c.step_eq, if_neg hknown, if_neg hcommit, if_pos htrust]
    by_cases hext : c.b.hashPrevBlock = st.hashBestChain
    · refine hkeep (fun hp => hp.2.2.2.2.1 hext) ?_
      rw [hstep]
      exact c.inv_extend h hfresh.1 hext
    · have hmap : (c.inserted crypto st).mapBlockIndex (getBlockHash (c.pindexNew crypto st)) =
          some (c.pindexNew crypto st) := if_pos rfl
      obtain ⟨hok, hfail⟩ := setBestChain_switch c.out hinv hmap hext
      rw [hstep]
      constructor
      · intro hpost
        refine hok fun hcan => ?_
        rw [all_reverse, all_eq_true]
        exact hpost ⟨hfresh.1, hfresh.2, by simpa using hcommit, htrust, hext, hcan⟩
      · intro hnot
        rw [Call.PostponedOk, Classical.not_imp] at hnot
        refine hfail hnot.1.2.2.2.2.2 ?_
        rw [all_reverse, ← Bool.not_eq_true, all_eq_true]
        exact hnot.2
  · refine hkeep (fun hp => htrust hp.2.2.2.1) ?_
    rw [c.step_eq, if_neg hknown, if_neg hcommit, if_neg htrust]
    exact hinv

def runCalls (crypto : Crypto) (st : ChainState) (calls : List Call) : ChainState :=
  calls.foldl (fun st c => c.step crypto st) st

theorem runCalls_append (crypto : Crypto) (st : ChainState) (calls : List Call) (c : Call) :
    runCalls crypto st (calls ++ [c]) = c.step crypto (runCalls crypto st calls) := by
  simp [runCalls]

/-- As long as the postponed blocks go through, the invariant holds. -/
theorem inv_runCalls (h : Inv st) {calls : List Call}
    (hok : ∀ done c rest, calls = done ++ c :: rest → c.PostponedOk crypto (runCalls crypto st
      done)) : Inv (runCalls crypto st calls) := by
  induction calls using reverseRecOn with
  | nil => exact h
  | append_singleton calls c ih =>
    rw [runCalls_append]
    have hinv := ih fun done c' rest he => hok done c' (rest ++ [c]) (by rw [he]; simp)
    exact (step_inv_iff hinv c).1 (hok calls c [] rfl)

/-- From the genesis block alone, the state after every call of a run is consistent exactly if in
every call the postponed blocks go through. -/
theorem consistent_iff_postponedOk (crypto : Crypto) (genesis : CBlock) (nFile nBlockPos : UInt32)
    (calls : List Call) :
    (∀ done rest, calls = done ++ rest →
      Consistent (runCalls crypto (.init crypto genesis nFile nBlockPos) done)) ↔
    ∀ done c rest, calls = done ++ c :: rest →
      c.PostponedOk crypto (runCalls crypto (.init crypto genesis nFile nBlockPos) done) := by
  have hinit := inv_init crypto genesis nFile nBlockPos
  constructor
  · intro hcons
    induction calls using reverseRecOn with
    | nil =>
      intro done c rest he
      simp at he
    | append_singleton calls c ih =>
      have hbefore := ih fun done rest he => hcons done (rest ++ [c]) (by rw [he]; simp)
      have hinv := inv_runCalls hinit hbefore
      have hlast : c.PostponedOk crypto (runCalls crypto (.init crypto genesis nFile nBlockPos) calls) := by
        by_contra hnot
        refine (step_inv_iff hinv c).2 hnot ?_
        rw [← runCalls_append]
        exact hcons (calls ++ [c]) [] (by simp)
      intro done c' rest he
      rcases eq_nil_or_concat rest with rfl | ⟨rest, c'', rfl⟩
      · obtain ⟨rfl, hc⟩ := append_inj' he rfl
        cases hc
        exact hlast
      · have hsplit : calls ++ [c] = (done ++ c' :: rest) ++ [c''] := by rw [he]; simp
        exact hbefore done c' rest (append_inj' hsplit rfl).1
  · rintro hok done rest rfl
    exact (inv_runCalls hinit fun done' c rest' he =>
      hok done' c (rest' ++ rest) (by rw [he]; simp)).consistent

/-! ## Switching the chain leaves the block index as it is -/

theorem mapBlockIndex_setPnext (st : ChainState) (pindex : PIndex) (v : Option Uint256) :
    (setPnext st pindex v).mapBlockIndex = st.mapBlockIndex :=
  (setPnext_sameIndex st pindex v).1.mapBlockIndex

theorem mapBlockIndex_invalidChainFound (st : ChainState) (pindex : PIndex) :
    (invalidChainFound st pindex).mapBlockIndex = st.mapBlockIndex :=
  (invalidChainFound_same st pindex).1.mapBlockIndex

theorem mapBlockIndex_setBestChainInner (out : Outcomes) (st : ChainState) (pindexNew : PIndex) :
    (setBestChainInner out st pindexNew).1.mapBlockIndex = st.mapBlockIndex := by
  simp only [setBestChainInner]
  split
  · rw [mapBlockIndex_invalidChainFound]
  · split
    · rfl
    · rw [mapBlockIndex_setPnext]

theorem mapBlockIndex_connectFurther (out : Outcomes) : ∀ (l : List PIndex) (st : ChainState),
    (connectFurther out st l).mapBlockIndex = st.mapBlockIndex
  | [], st => rfl
  | pindex :: rest, st => by
    simp only [connectFurther]
    split
    · rfl
    · have hinner := mapBlockIndex_setBestChainInner out { st with txdb := st.txdb.txnBegin } pindex
      split
      · rw [mapBlockIndex_connectFurther out rest, hinner]
      · exact hinner

theorem mapBlockIndex_reorganize {pindexNew : PIndex} (h : reorganize out st pindexNew = some st') :
    st'.mapBlockIndex = st.mapBlockIndex := by
  unfold reorganize at h
  split at h
  · cases h
  · cases h
    exact (relink_sameIndex _ _ _).1.mapBlockIndex

theorem mapBlockIndex_setBestChain (out : Outcomes) (st : ChainState) (hashPrevBlock : Uint256)
    (pindexNew : PIndex) :
    (setBestChain out st hashPrevBlock pindexNew).1.mapBlockIndex = st.mapBlockIndex := by
  have hswitch : (switchChain out st hashPrevBlock pindexNew).1.mapBlockIndex =
      st.mapBlockIndex := by
    simp only [switchChain]
    split
    · rw [mapBlockIndex_setBestChainInner]
    · split
      · rw [mapBlockIndex_invalidChainFound]
      · next st' hst' => rw [mapBlockIndex_connectFurther, mapBlockIndex_reorganize hst']
  unfold setBestChain
  split
  · next h =>
    rw [h] at hswitch
    exact hswitch
  · next h =>
    rw [h] at hswitch
    exact hswitch

/-! ## A postponed block that fails -/

def headerCrypto : Crypto :=
  { Crypto.sample with
    scryptBlockHash := fun v => BitVec.ofNat 256 (v.foldl (fun n b => n * 257 + b.toNat + 1) 1) }

def headerBlock (hashPrevBlock : Uint256) : CBlock :=
  ⟨6, hashPrevBlock, 0, 1599999999, 0x1e0fffff, 0, [], []⟩

def hashG : Uint256 := headerCrypto.blockHash (headerBlock 0)
def hashA : Uint256 := headerCrypto.blockHash (headerBlock hashG)
def hashB : Uint256 := headerCrypto.blockHash (headerBlock hashA)

/-- Everything works but connecting some blocks. -/
def outcomesWith (connectBlock : Uint256 → Bool) : Outcomes :=
  { indexOk := true, commitIndex := true, readFromDisk := fun _ => true, connectBlock,
    disconnectBlock := fun _ => true, commit := fun _ => true }

def failingCalls : List Call :=
  [⟨headerBlock hashG, 1, 100, outcomesWith fun _ => false⟩,
    ⟨headerBlock hashA, 1, 200, outcomesWith fun hash => hash == hashA⟩]

/-- After B, memory has B as the best block, the database and the links have A. -/
theorem failingCalls_not_consistent :
    (runCalls headerCrypto (.init headerCrypto (headerBlock 0) 1 8) failingCalls).hashBestChain =
        hashB ∧
      (runCalls headerCrypto (.init headerCrypto (headerBlock 0) 1 8)
        failingCalls).txdb.hashBestChain = hashA ∧
      follow (runCalls headerCrypto (.init headerCrypto (headerBlock 0) 1 8) failingCalls).pnext 3
        hashG = [hashG, hashA] ∧
      ¬ Consistent (runCalls headerCrypto (.init headerCrypto (headerBlock 0) 1 8) failingCalls) := by
  have hbest : (runCalls headerCrypto (.init headerCrypto (headerBlock 0) 1 8)
      failingCalls).hashBestChain = hashB := by decide +kernel
  have hdisk : (runCalls headerCrypto (.init headerCrypto (headerBlock 0) 1 8)
      failingCalls).txdb.hashBestChain = hashA := by decide +kernel
  refine ⟨hbest, hdisk, by decide +kernel, fun hc => ?_⟩
  have he := hc.database
  rw [hbest, hdisk] at he
  exact absurd he (by decide +kernel)

end NovaCoin
