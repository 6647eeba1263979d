import NovaCoin.Properties.OrphanBlocks
import NovaCoin.SyncCheckpoint

/-!
# The checkpoint only moves forward

In strict mode on the main net `CheckSync` lets no block into the index that does not descend from
the checkpoint, and `ValidateSyncCheckpoint` lets the checkpoint move to its descendants only.

A checkpoint that counts as part of the main chain is not connected again, and `IsInMainChain` goes by
the links. `Coherent` has what is needed for that, and is weaker than the invariant of
`Properties.BestChain`, which a postponed block that fails can break.
-/

namespace NovaCoin

open Links List Option

/-! ## The links -/

/-- A record with a `pnext` is a proper ancestor of the tip. -/
def LinkedBelow (st : ChainState) (tip : PIndex) : Prop :=
  ∀ hash, (st.pnext hash).isSome → hash ∈ hashes tip.tail

variable {base tip pindexNew : PIndex} {st : ChainState} {p : CBlockIndex}

theorem hashes_suffix (h : base <:+ tip) : hashes base <:+ hashes tip :=
  List.IsSuffix.map (fun pindex : CBlockIndex => pindex.hashBlock) h

theorem hashes_tail_subset (h : base <:+ tip) : hashes base.tail ⊆ hashes tip.tail := by
  obtain ⟨l, rfl⟩ := h
  intro hash hmem
  cases l with
  | nil => exact hmem
  | cons p l =>
    have hsub : base.tail <:+ l ++ base := (tail_suffix base).trans (suffix_append l base)
    exact (hashes_suffix hsub).subset hmem

theorem LinkedBelow.mono (h : LinkedBelow st base) (hs : base <:+ tip) : LinkedBelow st tip :=
  fun hash hsome => hashes_tail_subset hs (h hash hsome)

theorem LinkedBelow.congr {st' : ChainState} (h : LinkedBelow st tip)
    (hpnext : st'.pnext = st.pnext) : LinkedBelow st' tip := by
  intro hash hsome
  rw [hpnext] at hsome
  exact h hash hsome

/-- The link to a child of the tip. -/
theorem LinkedBelow.connect (h : LinkedBelow st base) (v : Option Uint256) :
    LinkedBelow (setPnext st (p :: base) v) (p :: base) := by
  cases base with
  | nil => exact h.mono (suffix_cons p [])
  | cons prev pprev =>
    intro hash hsome
    simp only [setPnext_pnext, Links.set] at hsome
    split at hsome
    · next heq =>
      rw [heq]
      exact mem_cons_self
    · exact hashes_tail_subset (suffix_cons p _) (h hash hsome)

theorem LinkedBelow.disconnect (h : LinkedBelow st (p :: base)) :
    LinkedBelow (setPnext st (p :: base) none) base := by
  cases base with
  | nil => exact h
  | cons prev pprev =>
    intro hash hsome
    simp only [setPnext_pnext, Links.set] at hsome
    split at hsome
    · cases hsome
    · next hne =>
      rcases mem_cons.mp (h hash hsome) with heq | hmem
      · exact absurd heq hne
      · exact hmem

/-! ## Switching -/

theorem LinkedBelow.setBestChainInner (out : Outcomes) (h : LinkedBelow st base) :
    SameIndex st (setBestChainInner out st (p :: base)).1 ∧
      LinkedBelow (setBestChainInner out st (p :: base)).1
        (if (setBestChainInner out st (p :: base)).2 then p :: base else base) := by
  simp only [NovaCoin.setBestChainInner]
  cases out.connectBlock (getBlockHash (p :: base)) with
  | false =>
    obtain ⟨hs, -, hpnext⟩ := invalidChainFound_same { st with txdb := st.txdb.txnAbort } (p :: base)
    exact ⟨{ hs with }, h.congr hpnext⟩
  | true =>
    cases out.commit (getBlockHash (p :: base)) with
    | false => exact ⟨⟨rfl, rfl, rfl, rfl, rfl, rfl⟩, h⟩
    | true =>
      obtain ⟨hs, -⟩ := setPnext_sameIndex
        { st with txdb := (st.txdb.writeHashBestChain (getBlockHash (p :: base))).txnCommit true }
        (p :: base) (some (getBlockHash (p :: base)))
      have hst : LinkedBelow { st with
          txdb := (st.txdb.writeHashBestChain (getBlockHash (p :: base))).txnCommit true } base :=
        h.congr rfl
      refine ⟨{ hs with }, ?_⟩
      exact hst.connect _

theorem LinkedBelow.reorganize {out : Outcomes} {st' : ChainState}
    (h : LinkedBelow st st.pindexBest) (hr : reorganize out st pindexNew = some st') :
    SameIndex st st' ∧ LinkedBelow st' pindexNew := by
  unfold NovaCoin.reorganize at hr
  split at hr
  · cases hr
  · next pfork hcan =>
    cases hr
    obtain ⟨hs₁, hs₂, hnil⟩ := canReorganize_eq_some hcan
    obtain ⟨hsame, -⟩ := relink_sameIndex { st with
      txdb := (st.txdb.writeHashBestChain (getBlockHash pindexNew)).txnCommit true } pfork pindexNew
    refine ⟨{ hsame with }, connect_path (P := fun pindex st => LinkedBelow st pindex) hnil
      (fun h => h.connect _) hs₂ ?_⟩
    exact disconnect_path (P := fun pindex st => LinkedBelow st pindex) hnil (fun h => h.disconnect)
      hs₁ (h.congr rfl)

theorem LinkedBelow.connectFurther (out : Outcomes) : ∀ {l : List PIndex} {st : ChainState}
    {base : PIndex}, LinkedBelow st base → Extends base l →
      SameIndex st (connectFurther out st l) ∧ LinkedBelow (connectFurther out st l) (newest base l)
  | [], st, _, h, _ => ⟨SameIndex.refl st, h⟩
  | _ :: l, st, base, h, ⟨⟨p, rfl⟩, hl⟩ => by
    have hlater : base <:+ newest (p :: base) l := (suffix_cons p base).trans hl.suffix
    rw [NovaCoin.connectFurther]
    split
    · exact ⟨SameIndex.refl st, h.mono hlater⟩
    · have hbegin : LinkedBelow { st with txdb := st.txdb.txnBegin } base := h.congr rfl
      obtain ⟨hs, htip⟩ := LinkedBelow.setBestChainInner out (p := p) hbegin
      have hs' : SameIndex st (NovaCoin.setBestChainInner out
        { st with txdb := st.txdb.txnBegin } (p :: base)).1 := { hs with }
      cases hr : NovaCoin.setBestChainInner out { st with txdb := st.txdb.txnBegin } (p :: base) with
      | mk st₁ ok =>
        rw [hr] at hs' htip
        cases ok with
        | false => exact ⟨hs', htip.mono hlater⟩
        | true =>
          obtain ⟨hs₂, htip₂⟩ := LinkedBelow.connectFurther out htip hl
          exact ⟨hs'.trans hs₂, htip₂⟩

/-! ## The block index -/

/-- The index has the ancestors of its records and `pindexBest`, and the links stay on the best
chain. -/
structure Coherent (st : ChainState) : Prop where
  ne_nil : ∀ hash pindex, st.mapBlockIndex hash = some pindex → pindex ≠ []
  ancestors : ∀ hash pindex, st.mapBlockIndex hash = some pindex → ∀ q, q <:+ pindex → q ≠ [] →
    st.mapBlockIndex (getBlockHash q) = some q
  hash_eq : ∀ hash pindex, st.mapBlockIndex hash = some pindex → getBlockHash pindex = hash
  best : st.mapBlockIndex st.hashBestChain = some st.pindexBest
  links : LinkedBelow st st.pindexBest

theorem coherent_init (crypto : Crypto) (genesis : CBlock) (nFile nBlockPos : UInt32) :
    Coherent (ChainState.init crypto genesis nFile nBlockPos) := by
  have hindex : ∀ hash pindex,
      (ChainState.init crypto genesis nFile nBlockPos).mapBlockIndex hash = some pindex →
      hash = (newBlockIndex crypto [] genesis nFile nBlockPos).hashBlock ∧
        pindex = [newBlockIndex crypto [] genesis nFile nBlockPos] := by
    intro hash pindex hmap
    simp only [ChainState.init] at hmap
    split at hmap
    · next heq => exact ⟨heq, (some.inj hmap).symm⟩
    · cases hmap
  refine ⟨fun hash pindex hmap => ?_, fun hash pindex hmap q hq hnil => ?_,
    fun hash pindex hmap => ?_, if_pos rfl, fun hash hsome => ?_⟩
  · rw [(hindex hash pindex hmap).2]
    simp
  · rw [(hindex hash pindex hmap).2] at hq
    rcases suffix_cons_iff.mp hq with rfl | hnil'
    · exact if_pos rfl
    · exact absurd (suffix_nil.mp hnil') hnil
  · obtain ⟨rfl, rfl⟩ := hindex hash pindex hmap
    rfl
  · cases hsome

namespace Coherent

variable {st' : ChainState} {pprev : PIndex} {hash : Uint256}

theorem of_sameIndex (h : Coherent st) (hs : SameIndex st st') (hl : LinkedBelow st' st.pindexBest) :
    Coherent st' := by
  refine ⟨?_, ?_, ?_, ?_, ?_⟩
  · rw [hs.mapBlockIndex]
    exact h.ne_nil
  · rw [hs.mapBlockIndex]
    exact h.ancestors
  · rw [hs.mapBlockIndex]
    exact h.hash_eq
  · rw [hs.mapBlockIndex, hs.hashBestChain, hs.pindexBest]
    exact h.best
  · rw [hs.pindexBest]
    exact hl

theorem setBest (h : Coherent st) (hs : SameIndex st st')
    (hmap : st.mapBlockIndex (getBlockHash pindexNew) = some pindexNew)
    (hl : LinkedBelow st' pindexNew) : Coherent (setBest st' pindexNew) := by
  have hindex : (NovaCoin.setBest st' pindexNew).mapBlockIndex = st.mapBlockIndex := hs.mapBlockIndex
  refine ⟨?_, ?_, ?_, ?_, hl.congr rfl⟩
  · rw [hindex]
    exact h.ne_nil
  · rw [hindex]
    exact h.ancestors
  · rw [hindex]
    exact h.hash_eq
  · rw [hindex]
    exact hmap

/-- `SetBestChain` ends at the new block, or where it was. -/
theorem setBestChain (h : Coherent st) (out : Outcomes)
    (hmap : st.mapBlockIndex (getBlockHash (p :: pprev)) = some (p :: pprev)) (hnil : pprev ≠ []) :
    Coherent (setBestChain out st (getBlockHash pprev) (p :: pprev)).1 ∧
      (NovaCoin.setBestChain out st (getBlockHash pprev) (p :: pprev)).1.pindexBest =
        if (NovaCoin.setBestChain out st (getBlockHash pprev) (p :: pprev)).2 then p :: pprev
        else st.pindexBest := by
  by_cases hext : getBlockHash pprev = st.hashBestChain
  · -- the parent is the best block
    have hprev := h.ancestors _ _ hmap pprev (suffix_cons p pprev) hnil
    rw [hext, h.best] at hprev
    cases hprev
    have hbegin : LinkedBelow { st with txdb := st.txdb.txnBegin } st.pindexBest := h.links.congr rfl
    obtain ⟨hs, hl⟩ := LinkedBelow.setBestChainInner out (p := p) hbegin
    have hs' : SameIndex st (setBestChainInner out { st with txdb := st.txdb.txnBegin }
      (p :: st.pindexBest)).1 := { hs with }
    rw [setBestChain]
    simp only [switchChain, if_pos hext]
    cases hr : setBestChainInner out { st with txdb := st.txdb.txnBegin } (p :: st.pindexBest) with
    | mk st' ok =>
      rw [hr] at hs' hl
      cases ok with
      | false => exact ⟨h.of_sameIndex hs' hl, hs'.pindexBest⟩
      | true => exact ⟨h.setBest hs' hmap hl, rfl⟩
  · obtain ⟨-, hextends, hnewest⟩ := postpone_spec (chainTrust st.pindexBest) (cons_ne_nil p pprev)
    rw [NovaCoin.setBestChain]
    simp only [switchChain, if_neg hext]
    cases hr : reorganize out { st with txdb := st.txdb.txnBegin }
        (postpone (chainTrust st.pindexBest) (p :: pprev)).2 with
    | none =>
      obtain ⟨hs, -, hpnext⟩ := invalidChainFound_same
        { st with txdb := st.txdb.txnBegin.txnAbort } (p :: pprev)
      exact ⟨h.of_sameIndex { hs with } (h.links.congr hpnext), hs.pindexBest⟩
    | some st₁ =>
      have hbegin : LinkedBelow { st with txdb := st.txdb.txnBegin } st.pindexBest := h.links.congr rfl
      obtain ⟨hs₁, hl₁⟩ := hbegin.reorganize hr
      obtain ⟨hs₂, hl₂⟩ := LinkedBelow.connectFurther out hl₁ hextends
      rw [hnewest] at hl₂
      exact ⟨h.setBest (({ hs₁ with } : SameIndex st st₁).trans hs₂) hmap hl₂, rfl⟩

theorem insert (h : Coherent st) (hnew : st.mapBlockIndex hash = none) {r : CBlockIndex}
    (hr : r.hashBlock = hash) (hprev : st.mapBlockIndex (getBlockHash pprev) = some pprev) :
    Coherent { st with
      mapBlockIndex := fun h => if h = hash then some (r :: pprev) else st.mapBlockIndex h } := by
  have hother : ∀ k pindex, st.mapBlockIndex k = some pindex → k ≠ hash := by
    rintro k pindex hk rfl
    rw [hnew] at hk
    cases hk
  -- what is in the index stays there
  have hkeep : ∀ {k : Uint256} {pindex : PIndex}, st.mapBlockIndex k = some pindex →
      (if k = hash then some (r :: pprev) else st.mapBlockIndex k) = some pindex := by
    intro k pindex hk
    rw [if_neg (hother k pindex hk), hk]
  have hcases : ∀ {k : Uint256} {pindex : PIndex},
      (if k = hash then some (r :: pprev) else st.mapBlockIndex k) = some pindex →
      (k = hash ∧ pindex = r :: pprev) ∨ st.mapBlockIndex k = some pindex := by
    intro k pindex hk
    split at hk
    · next heq => exact .inl ⟨heq, (some.inj hk).symm⟩
    · exact .inr hk
  refine ⟨fun k pindex hk => ?_, fun k pindex hk q hq hnil => ?_, fun k pindex hk => ?_,
    hkeep h.best, h.links⟩
  · rcases hcases hk with ⟨-, rfl⟩ | hk
    · simp
    · exact h.ne_nil k pindex hk
  · rcases hcases hk with ⟨-, rfl⟩ | hk
    · rcases suffix_cons_iff.mp hq with rfl | hq
      · exact if_pos hr
      · exact hkeep (h.ancestors _ _ hprev q hq hnil)
    · exact hkeep (h.ancestors k pindex hk q hq hnil)
  · rcases hcases hk with ⟨rfl, rfl⟩ | hk
    · exact hr
    · exact h.hash_eq k pindex hk

/-- The new record is a branch over its predecessor, and the others stay. -/
theorem addToBlockIndex (h : Coherent st) (crypto : Crypto) {b : CBlock} (nFile nBlockPos : UInt32)
    (out : Outcomes) (hnew : st.mapBlockIndex (crypto.blockHash b) = none)
    (hprev : st.mapBlockIndex b.hashPrevBlock = some pprev) :
    Coherent (addToBlockIndex crypto st b nFile nBlockPos out).1 ∧
      (∀ hash pindex, st.mapBlockIndex hash = some pindex →
        (NovaCoin.addToBlockIndex crypto st b nFile nBlockPos out).1.mapBlockIndex hash = some pindex) ∧
      ((NovaCoin.addToBlockIndex crypto st b nFile nBlockPos out).1.pindexBest = st.pindexBest ∨
        (NovaCoin.addToBlockIndex crypto st b nFile nBlockPos out).1.pindexBest =
          newBlockIndex crypto pprev b nFile nBlockPos :: pprev) := by
  have hhash := h.hash_eq _ _ hprev
  have hinsert := h.insert hnew (r := newBlockIndex crypto pprev b nFile nBlockPos) rfl
    (by rwa [hhash])
  have hgrow : ∀ hash pindex, st.mapBlockIndex hash = some pindex →
      (if hash = crypto.blockHash b then
        some (newBlockIndex crypto pprev b nFile nBlockPos :: pprev) else st.mapBlockIndex hash) =
        some pindex := by
    intro hash pindex hmap
    rw [if_neg, hmap]
    rintro rfl
    rw [hnew] at hmap
    cases hmap
  simp only [NovaCoin.addToBlockIndex, hnew, hprev, isSome_none, Bool.false_or,
    getD_some]
  split
  · exact ⟨h, fun _ _ hmap => hmap, .inl rfl⟩
  · split
    · exact ⟨hinsert, hgrow, .inl rfl⟩
    · split
      · have hmap : (if getBlockHash (newBlockIndex crypto pprev b nFile nBlockPos :: pprev) =
            crypto.blockHash b then some (newBlockIndex crypto pprev b nFile nBlockPos :: pprev)
            else st.mapBlockIndex (getBlockHash
              (newBlockIndex crypto pprev b nFile nBlockPos :: pprev))) =
            some (newBlockIndex crypto pprev b nFile nBlockPos :: pprev) := if_pos rfl
        obtain ⟨hcoherent, hbest⟩ := hinsert.setBestChain out hmap (h.ne_nil _ _ hprev)
        rw [hhash] at hcoherent hbest
        refine ⟨hcoherent, fun hash pindex hmap => ?_, ?_⟩
        · rw [mapBlockIndex_setBestChain]
          exact hgrow hash pindex hmap
        · rw [hbest]
          split
          · exact .inr rfl
          · exact .inl rfl
      · exact ⟨hinsert, hgrow, .inl rfl⟩

theorem suffix_of_isInMainChain (h : Coherent st) {pindex : PIndex}
    (hmap : st.mapBlockIndex hash = some pindex) (hmain : st.isInMainChain pindex) :
    pindex <:+ st.pindexBest := by
  rw [ChainState.isInMainChain, Bool.or_eq_true, beq_iff_eq] at hmain
  rcases hmain with hlink | rfl
  · have hmem := h.links _ hlink
    obtain ⟨r, hr, hhash⟩ := mem_map.mp hmem
    obtain ⟨newer, older, hsplit⟩ := append_of_mem (mem_of_mem_tail hr)
    have hsuffix : r :: older <:+ st.pindexBest := ⟨newer, hsplit.symm⟩
    have hq := h.ancestors _ _ h.best _ hsuffix (cons_ne_nil r older)
    rw [show getBlockHash (r :: older) = getBlockHash pindex from hhash, h.hash_eq _ _ hmap, hmap] at hq
    cases hq
    exact hsuffix
  · exact suffix_refl _

end Coherent

/-! ## The checkpoint -/

theorem walkBack_ne_nil {nHeight : Int} : ∀ {plonger pindex : PIndex},
    walkBack nHeight plonger = some pindex → pindex ≠ []
  | [], _, h => by cases h
  | p :: pprev, pindex, h => by
    rw [walkBack] at h
    split at h
    · exact walkBack_ne_nil h
    · cases h
      simp

theorem OrphanLoop.node_acceptOrphan {N : Type} (loop : OrphanLoop N) (crypto : Crypto)
    (out : BlockOutcomes) (w : OrphanWork N) (b : CBlock) :
    (loop.acceptOrphan crypto out w b).node = (loop.acceptBlock out w.node b).1 := by
  rw [OrphanLoop.acceptOrphan]
  rcases loop.acceptBlock out w.node b with ⟨_, _ | _⟩ <;> rfl

namespace SyncNode

variable {st st' : SyncNode}

/-- The best chain goes through the checkpoint. -/
def Synced (st : SyncNode) : Prop :=
  ∃ pindex, st.find st.hashSyncCheckpoint = some pindex ∧ pindex <:+ st.node.chain.pindexBest

def Advances (st st' : SyncNode) : Prop :=
  st'.hashSyncCheckpoint = st.hashSyncCheckpoint ∨
    ∃ pindex pindex', st'.find st.hashSyncCheckpoint = some pindex ∧
      st'.find st'.hashSyncCheckpoint = some pindex' ∧ pindex <:+ pindex' ∧ pindex ≠ pindex'

/-- What every part of a step comes to. -/
structure Proceeds (st st' : SyncNode) : Prop where
  coherent : Coherent st'.node.chain
  synced : st'.Synced
  known : ∀ hash pindex, st.find hash = some pindex → st'.find hash = some pindex
  advances : Advances st st'

/-- What is assumed before. -/
structure OnCourse (st : SyncNode) : Prop where
  coherent : Coherent st.node.chain
  synced : st.Synced

theorem Proceeds.onCourse (h : Proceeds st st') : st'.OnCourse := ⟨h.coherent, h.synced⟩

/-- The chain and the checkpoint are the same. -/
theorem OnCourse.same (h : st.OnCourse) (hchain : st'.node.chain = st.node.chain)
    (hhash : st'.hashSyncCheckpoint = st.hashSyncCheckpoint) : Proceeds st st' := by
  have hfind : ∀ hash, st'.find hash = st.find hash := fun hash => by rw [find, hchain, find]
  refine ⟨hchain ▸ h.coherent, ?_, fun hash pindex hmap => (hfind hash).trans hmap, .inl hhash⟩
  obtain ⟨pindex, hmap, hsuffix⟩ := h.synced
  exact ⟨pindex, by rw [hhash, hfind, hmap], by rwa [hchain]⟩

theorem OnCourse.refl (h : st.OnCourse) : Proceeds st st := h.same rfl rfl

theorem Proceeds.trans {st'' : SyncNode} (h : Proceeds st st') (h' : Proceeds st' st'') :
    Proceeds st st'' := by
  refine ⟨h'.coherent, h'.synced, fun hash pindex hmap => h'.known _ _ (h.known _ _ hmap), ?_⟩
  rcases h.advances with heq | ⟨p, p', hp, hp', hsuffix, hne⟩
  · rcases h'.advances with heq' | ⟨q, q', hq, hq', hsuffix', hne'⟩
    · exact .inl (heq'.trans heq)
    · exact .inr ⟨q, q', by rwa [← heq], hq', hsuffix', hne'⟩
  · rcases h'.advances with heq' | ⟨q, q', hq, hq', hsuffix', hne'⟩
    · exact .inr ⟨p, p', h'.known _ _ hp, by rw [heq']; exact h'.known _ _ hp', hsuffix, hne⟩
    · cases (h'.known _ _ hp').symm.trans hq
      refine .inr ⟨p, q', h'.known _ _ hp, hq', hsuffix.trans hsuffix', ?_⟩
      rintro rfl
      exact hne (hsuffix.eq_of_length_le hsuffix'.length_le)

theorem OnCourse.suffix_of_checkSync (h : st.OnCourse) {params : SyncParams}
    (hmain : params.fTestNet = false) {hashBlock hashPrev : Uint256} {pindexPrev pindexSync : PIndex}
    (hnew : st.find hashBlock = none) (hprev : st.find hashPrev = some pindexPrev)
    (hsync : st.find st.hashSyncCheckpoint = some pindexSync)
    (hcheck : st.checkSync params hashBlock pindexPrev) : pindexSync <:+ pindexPrev := by
  simp only [checkSync, hmain, Bool.false_eq_true, if_false, hsync] at hcheck
  split at hcheck
  · split at hcheck
    · cases hcheck
    · next pindex hwalk =>
      have hsuffix := walkBack_suffix hwalk
      have hfound := h.coherent.ancestors _ _ hprev pindex hsuffix (walkBack_ne_nil hwalk)
      simp only [Bool.not_eq_true', Bool.or_eq_false_iff, bne_eq_false_iff_eq] at hcheck
      rw [hcheck.2] at hfound
      cases hsync.symm.trans hfound
      exact hsuffix
  · split at hcheck
    · rw [beq_iff_eq.mp hcheck, hsync] at hnew
      cases hnew
    · rw [hnew] at hcheck
      cases hcheck

/-- A checkpoint that passes is above the current one on the same chain. -/
theorem validateSyncCheckpoint_spec (hcoherent : Coherent st.node.chain) (hashCheckpoint : Uint256) :
    (st.validateSyncCheckpoint hashCheckpoint).1.node = st.node ∧
      (st.validateSyncCheckpoint hashCheckpoint).1.hashSyncCheckpoint = st.hashSyncCheckpoint ∧
      (st.validateSyncCheckpoint hashCheckpoint).1.hashPendingCheckpoint = st.hashPendingCheckpoint ∧
      ((st.validateSyncCheckpoint hashCheckpoint).2 → ∃ pindex pindex',
        st.find st.hashSyncCheckpoint = some pindex ∧ st.find hashCheckpoint = some pindex' ∧
          pindex <:+ pindex' ∧ pindex ≠ pindex') := by
  unfold validateSyncCheckpoint
  split
  · next pindex pindex' hp hp' =>
    split
    · split
      · exact ⟨rfl, rfl, rfl, nofun⟩
      · split
        · exact ⟨rfl, rfl, rfl, nofun⟩
        · exact ⟨rfl, rfl, rfl, nofun⟩
    · next hheight =>
      split
      · exact ⟨rfl, rfl, rfl, nofun⟩
      · next q hwalk =>
        split
        · exact ⟨rfl, rfl, rfl, nofun⟩
        · next hhash =>
          refine ⟨rfl, rfl, rfl, fun _ => ⟨pindex, pindex', hp, hp', ?_, ?_⟩⟩
          · have hsuffix := walkBack_suffix hwalk
            have hfound := hcoherent.ancestors _ _ hp' q hsuffix (walkBack_ne_nil hwalk)
            rw [not_not.mp hhash] at hfound
            cases hp.symm.trans hfound
            exact hsuffix
          · rintro rfl
            exact hheight (le_refl _)
  · exact ⟨rfl, rfl, rfl, nofun⟩

variable {hashCheckpoint : Uint256}

section

variable {pindex pindex' : PIndex} (out : SyncOutcomes) (h : st.OnCourse)
  (hp : st.find st.hashSyncCheckpoint = some pindex) (hp' : st.find hashCheckpoint = some pindex')
  (hsuffix : pindex <:+ pindex') (hne : pindex ≠ pindex')
include h hp hp' hsuffix hne

/-- The best chain goes through a descendant of the checkpoint afterwards, or nothing has changed.
-/
theorem OnCourse.reachCheckpoint : Proceeds st (st.reachCheckpoint out hashCheckpoint).1 ∧
      (st.reachCheckpoint out hashCheckpoint).1.hashSyncCheckpoint = st.hashSyncCheckpoint ∧
      ((st.reachCheckpoint out hashCheckpoint).2 →
        pindex' <:+ (st.reachCheckpoint out hashCheckpoint).1.node.chain.pindexBest) := by
  have hash_eq := h.coherent.hash_eq _ _ hp'
  simp only [SyncNode.reachCheckpoint, hp', getD_some]
  split
  · next hmain => exact ⟨h.refl, rfl, fun _ => h.coherent.suffix_of_isInMainChain hp' hmain⟩
  · split
    · exact ⟨h.refl, rfl, nofun⟩
    · -- the block has a parent, since it is a proper descendant
      obtain ⟨r, pprev, rfl⟩ := exists_cons_of_ne_nil (h.coherent.ne_nil _ _ hp')
      have hpprev : pindex <:+ pprev := by
        rcases suffix_cons_iff.mp hsuffix with heq | hs
        · exact absurd heq hne
        · exact hs
      have hnil : pprev ≠ [] := by
        rintro rfl
        exact h.coherent.ne_nil _ _ hp (suffix_nil.mp hpprev)
      have hmap : st.node.chain.mapBlockIndex (getBlockHash (r :: pprev)) = some (r :: pprev) := by
        rwa [hash_eq]
      obtain ⟨hcoherent, hbest⟩ := h.coherent.setBestChain out.index hmap hnil
      have hindex := mapBlockIndex_setBestChain out.index st.node.chain (getBlockHash pprev) (r :: pprev)
      rw [tail_cons]
      cases hr : setBestChain out.index st.node.chain (getBlockHash pprev) (r :: pprev) with
      | mk chain ok =>
        rw [hr] at hcoherent hbest hindex
        have hknown : ∀ hash q, st.find hash = some q → chain.mapBlockIndex hash = some q := by
          intro hash q hq
          rw [hindex]
          exact hq
        cases ok with
        | false =>
          obtain ⟨q, hq, hqs⟩ := h.synced
          exact ⟨⟨hcoherent, ⟨q, hknown _ _ hq, by rw [hbest]; exact hqs⟩, hknown, .inl rfl⟩, rfl, nofun⟩
        | true =>
          exact ⟨⟨hcoherent, ⟨pindex, hknown _ _ hp, by rw [hbest]; exact hsuffix⟩, hknown, .inl rfl⟩,
            rfl, fun _ => by rw [hbest]; exact suffix_refl _⟩

theorem OnCourse.moveCheckpoint : Proceeds st (st.moveCheckpoint out hashCheckpoint).1 := by
  obtain ⟨hreach, hhash, hbest⟩ := h.reachCheckpoint out hp hp' hsuffix hne
  unfold SyncNode.moveCheckpoint
  cases hr : st.reachCheckpoint out hashCheckpoint with
  | mk st₁ ok =>
    rw [hr] at hreach hhash hbest
    cases ok with
    | false => exact hreach
    | true =>
      simp only
      split
      · exact hreach
      · refine ⟨hreach.coherent, ⟨pindex', hreach.known _ _ hp', hbest rfl⟩, hreach.known, .inr ?_⟩
        exact ⟨pindex, pindex', hreach.known _ _ hp, hreach.known _ _ hp', hsuffix, hne⟩

end

theorem OnCourse.validated (h : st.OnCourse) (out : SyncOutcomes) {st₁ : SyncNode} {ok : Bool}
    (hv : st.validateSyncCheckpoint hashCheckpoint = (st₁, ok)) :
    Proceeds st st₁ ∧ st₁.hashPendingCheckpoint = st.hashPendingCheckpoint ∧
      (ok → Proceeds st (st₁.moveCheckpoint out hashCheckpoint).1) := by
  obtain ⟨hnode, hhash, hpending, hvalid⟩ := validateSyncCheckpoint_spec h.coherent hashCheckpoint
  rw [hv] at hnode hhash hpending hvalid
  have hsame : Proceeds st st₁ := h.same (by rw [hnode]) hhash
  refine ⟨hsame, hpending, fun hok => hsame.trans ?_⟩
  obtain ⟨pindex, pindex', hp, hp', hsuffix, hne⟩ := hvalid hok
  have hp₁ : st₁.find st₁.hashSyncCheckpoint = some pindex := by
    rw [hhash]
    exact hsame.known _ _ hp
  exact hsame.onCourse.moveCheckpoint out hp₁ (hsame.known _ _ hp') hsuffix hne

theorem OnCourse.acceptPendingSyncCheckpoint (h : st.OnCourse) (out : SyncOutcomes) :
    Proceeds st (st.acceptPendingSyncCheckpoint out).1 := by
  unfold SyncNode.acceptPendingSyncCheckpoint
  split
  · cases hv : st.validateSyncCheckpoint st.hashPendingCheckpoint with
    | mk st₁ ok =>
      obtain ⟨hsame, hpending, hmove⟩ := h.validated out hv
      cases ok with
      | false => exact hsame.trans (hsame.onCourse.same rfl rfl)
      | true =>
        simp only [hpending]
        exact hmove rfl
  · exact h.refl

theorem OnCourse.processSyncCheckpoint (h : st.OnCourse) (crypto : Crypto) (out : SyncOutcomes)
    (msg : CSyncCheckpoint) : Proceeds st (st.processSyncCheckpoint crypto out msg).1 := by
  unfold SyncNode.processSyncCheckpoint
  split
  · exact h.refl
  · next hashCheckpoint _ =>
    split
    · exact h.same rfl rfl
    · cases hv : st.validateSyncCheckpoint hashCheckpoint with
      | mk st₁ ok =>
        obtain ⟨hsame, -, hmove⟩ := h.validated out hv
        cases ok with
        | false => exact hsame
        | true => exact hmove rfl

/-! ## Blocks -/

theorem acceptBlock_chain (crypto : Crypto) (out : BlockOutcomes) (node : BlockNode) (b : CBlock) :
    (NovaCoin.acceptBlock crypto out node b).1.chain = node.chain ∨
      node.chain.mapBlockIndex (crypto.blockHash b) = none ∧
        (node.chain.mapBlockIndex b.hashPrevBlock).isSome ∧
        (NovaCoin.acceptBlock crypto out node b).1.chain =
          (addToBlockIndex crypto node.chain b out.nFile out.nBlockPos out.index).1 := by
  unfold NovaCoin.acceptBlock
  split
  · exact .inl rfl
  · next hnew =>
    split
    · exact .inl rfl
    · next hprev =>
      split
      · exact .inl rfl
      · refine .inr ⟨not_isSome_iff_eq_none.mp hnew, ?_, rfl⟩
        rwa [isNone_iff_eq_none, ← ne_eq, ← isSome_iff_ne_none] at hprev

section Strict

variable (crypto : Crypto) {params : SyncParams} (hmain : params.fTestNet = false)
  (hstrict : params.checkpointsMode = .STRICT)

include hmain hstrict

/-- A block that conflicts with the checkpoint is refused before the index changes. -/
theorem OnCourse.acceptBlock (h : st.OnCourse) (out : BlockOutcomes) (sync : SyncOutcomes)
    (b : CBlock) : Proceeds st (st.acceptBlock crypto params out sync b).1 := by
  unfold SyncNode.acceptBlock
  simp only [hstrict, true_and]
  split
  · exact h.refl
  · next hcheck =>
    have hadd : Proceeds st { st with node := (NovaCoin.acceptBlock crypto out st.node b).1 } := by
      rcases acceptBlock_chain crypto out st.node b with hsame | ⟨hnew, hprev, hchain⟩
      · exact h.same hsame rfl
      · obtain ⟨pprev, hprev⟩ := isSome_iff_exists.mp hprev
        obtain ⟨hcoherent, hknown, hbest⟩ := h.coherent.addToBlockIndex crypto out.nFile out.nBlockPos
          out.index hnew hprev
        obtain ⟨pindex, hp, hsuffix⟩ := h.synced
        have hfind : st.find b.hashPrevBlock = some pprev := hprev
        rw [hfind, Bool.not_eq_false] at hcheck
        have hpprev := h.suffix_of_checkSync hmain hnew hfind hp hcheck
        rw [← hchain] at hcoherent hknown hbest
        refine ⟨hcoherent, ⟨pindex, hknown _ _ hp, ?_⟩, hknown, .inl rfl⟩
        rcases hbest with heq | heq
        · rw [heq]
          exact hsuffix
        · rw [heq]
          exact hpprev.trans (suffix_cons _ pprev)
    cases hr : NovaCoin.acceptBlock crypto out st.node b with
    | mk node ok =>
      rw [hr] at hadd
      cases ok with
      | false => exact hadd
      | true => exact hadd.trans (hadd.onCourse.acceptPendingSyncCheckpoint sync)

variable (call : SyncBlockCall) {w : OrphanWork SyncNode}

/-- Nothing but `AcceptBlock` touches the chain in the loop over the orphans. -/
theorem OnCourse.tryOrphan (h : w.node.OnCourse) (b : CBlock) :
    Proceeds w.node ((call.orphanLoop crypto params).tryOrphan crypto
      (call.outs (crypto.blockHash b)) w b).node := by
  have haccept : Proceeds w.node ((call.orphanLoop crypto params).acceptOrphan crypto
      (call.outs (crypto.blockHash b)) w b).node := by
    rw [OrphanLoop.node_acceptOrphan]
    exact h.acceptBlock crypto hmain hstrict _ (call.syncs (crypto.blockHash b)) b
  unfold OrphanLoop.tryOrphan
  split
  · split
    · exact haccept.trans (haccept.onCourse.same rfl rfl)
    · exact h.refl
  · exact haccept

theorem OnCourse.visitOrphanBlock (h : w.node.OnCourse) (b : CBlock) :
    Proceeds w.node ((call.orphanLoop crypto params).visitOrphanBlock crypto call.outs w b).node := by
  have htry := h.tryOrphan crypto hmain hstrict call b
  exact htry.trans (htry.onCourse.same rfl rfl)

theorem OnCourse.visitPrevBlock (h : w.node.OnCourse) (hashPrev : Uint256) :
    Proceeds w.node
      ((call.orphanLoop crypto params).visitPrevBlock crypto call.outs w hashPrev).node := by
  have hvisits : Proceeds w.node ((w.node.node.waitingFor hashPrev).foldl
      ((call.orphanLoop crypto params).visitOrphanBlock crypto call.outs) w).node := by
    refine foldlRecOn (motive := fun w' : OrphanWork SyncNode => Proceeds w.node w'.node) _ _
      h.refl ?_
    intro w' hw' b _
    exact hw'.trans (hw'.onCourse.visitOrphanBlock crypto hmain hstrict call b)
  exact hvisits.trans (hvisits.onCourse.same rfl rfl)

theorem OnCourse.rounds : ∀ (n i : Nat) {w : OrphanWork SyncNode}, w.node.OnCourse →
    Proceeds w.node (call.rounds crypto params n i w).node
  | 0, _, _, h => h.refl
  | n + 1, i, w, h => by
    rw [SyncBlockCall.rounds]
    split
    · exact h.refl
    · next hashPrev _ =>
      have hvisit := h.visitPrevBlock crypto hmain hstrict call hashPrev
      exact hvisit.trans (OnCourse.rounds n (i + 1) hvisit.onCourse)

theorem OnCourse.processBlock (h : st.OnCourse) (nRounds : Nat) :
    Proceeds st (st.processBlock crypto params call nRounds) := by
  unfold SyncNode.processBlock
  simp only
  split
  · exact h.refl
  · split
    · refine h.same ?_ rfl
      unfold addOrphanBlock
      simp only
      split <;> rfl
    · split
      · exact h.refl
      · have haccept := h.acceptBlock crypto hmain hstrict (call.outs (crypto.blockHash call.pblock))
          (call.syncs (crypto.blockHash call.pblock)) call.received
        cases hr : st.acceptBlock crypto params (call.outs (crypto.blockHash call.pblock))
            (call.syncs (crypto.blockHash call.pblock)) call.received with
        | mk st₁ ok =>
          rw [hr] at haccept
          cases ok with
          | false => exact haccept
          | true =>
            have hstart : (⟨st₁, [crypto.blockHash call.pblock]⟩ : OrphanWork SyncNode).node.OnCourse :=
              haccept.onCourse
            exact haccept.trans (hstart.rounds crypto hmain hstrict call nRounds 0)

omit call

theorem OnCourse.step (h : st.OnCourse) (call : SyncCall) :
    Proceeds st (st.step crypto params call) := by
  cases call with
  | processBlock call nRounds => exact h.processBlock crypto hmain hstrict call nRounds
  | processSyncCheckpoint msg out => exact h.processSyncCheckpoint crypto out msg
  | acceptPendingSyncCheckpoint out => exact h.acceptPendingSyncCheckpoint out

theorem OnCourse.run (h : st.OnCourse) (calls : List SyncCall) :
    (st.run crypto params calls).OnCourse := by
  refine foldlRecOn (motive := OnCourse) _ _ h ?_
  intro st' hst' call _
  exact (hst'.step crypto hmain hstrict call).onCourse

end Strict

/-- In strict mode on the main net, after every run from a state whose best chain goes through the
checkpoint it still does, and the next call leaves the checkpoint or moves it to a descendant. -/
theorem syncCheckpoint_monotone (crypto : Crypto) (params : SyncParams) (st : SyncNode)
    (hmain : params.fTestNet = false) (hstrict : params.checkpointsMode = .STRICT)
    (hcoherent : Coherent st.node.chain) (hsynced : st.Synced) (calls : List SyncCall) :
    (st.run crypto params calls).Synced ∧
      ∀ call, Advances (st.run crypto params calls) ((st.run crypto params calls).step crypto params call) := by
  have hrun := OnCourse.run crypto hmain hstrict ⟨hcoherent, hsynced⟩ calls
  exact ⟨hrun.synced, fun call => (hrun.step crypto hmain hstrict call).advances⟩

/-! ## The test net -/

def genesis : SyncNode := ⟨genesisNode, hashG, 0, 0⟩

theorem genesis_coherent : Coherent genesis.node.chain := coherent_init headerCrypto (headerBlock 0) 1 8

theorem genesis_synced : genesis.Synced := ⟨_, genesis_coherent.best, suffix_refl _⟩

def syncOk : SyncOutcomes := ⟨true, outcomesWith fun _ => true, true⟩

def blockArrives (b : CBlock) : SyncCall :=
  .processBlock ⟨⟨b, checksWith (fun _ => true) fun _ => true, []⟩, fun _ => syncOk⟩ 1

def namesA : CSyncCheckpoint := ⟨leBytes 4 1 ++ serializeUint256 hashA, []⟩

def rivalBlock : CBlock := { headerBlock hashG with nNonce := 1 }

/-- A becomes the checkpoint, and then two blocks come that make a longer chain without it. -/
def rivalCalls : List SyncCall :=
  [blockArrives (headerBlock hashG), .processSyncCheckpoint namesA syncOk, blockArrives rivalBlock,
    blockArrives (headerBlock (headerCrypto.blockHash rivalBlock))]

/-- On the test net `CheckSync` accepts every block, while the messages still move the checkpoint. -/
theorem testnet_leaves_checkpoint : Coherent genesis.node.chain ∧ genesis.Synced ∧
    (genesis.run headerCrypto ⟨true, .STRICT⟩ rivalCalls).hashSyncCheckpoint = hashA ∧
    ¬(genesis.run headerCrypto ⟨true, .STRICT⟩ rivalCalls).Synced := by
  have hsync : (genesis.run headerCrypto ⟨true, .STRICT⟩ rivalCalls).hashSyncCheckpoint = hashA := by
    decide +kernel
  have hcheckpoint : ((genesis.run headerCrypto ⟨true, .STRICT⟩ rivalCalls).find hashA).map hashes =
      some [hashA, hashG] := by
    decide +kernel
  have hbest : [hashA, hashG].isSuffixOf
      (hashes (genesis.run headerCrypto ⟨true, .STRICT⟩ rivalCalls).node.chain.pindexBest) = false := by
    decide +kernel
  refine ⟨genesis_coherent, genesis_synced, hsync, ?_⟩
  rintro ⟨pindex, hfind, hsuffix⟩
  rw [hsync] at hfind
  rw [hfind, map_some, some.injEq] at hcheckpoint
  have hmap := hashes_suffix hsuffix
  rw [hcheckpoint, ← isSuffixOf_iff_suffix, hbest] at hmap
  cases hmap

/-- A rival branch arrives, and the checkpoint does not go back. -/
theorem syncCheckpoint_monotone_rival :
    (genesis.run headerCrypto ⟨false, .STRICT⟩ rivalCalls).Synced ∧
      ∀ call, Advances (genesis.run headerCrypto ⟨false, .STRICT⟩ rivalCalls)
        ((genesis.run headerCrypto ⟨false, .STRICT⟩ rivalCalls).step headerCrypto ⟨false, .STRICT⟩ call) :=
  syncCheckpoint_monotone headerCrypto ⟨false, .STRICT⟩ genesis rfl rfl genesis_coherent
    genesis_synced rivalCalls

end SyncNode

end NovaCoin
