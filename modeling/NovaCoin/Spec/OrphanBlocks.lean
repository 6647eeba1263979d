import NovaCoin.OrphanBlock
import NovaCoin.Properties.BestChain

/-!
# What ProcessBlock does with the orphans

A call of `ProcessBlock` refuses the block, makes it an orphan, or hands it to `AcceptBlock`
(`Processed`). If it is accepted, the orphans that wait for it are visited, and those that wait for
the ones accepted among them, and so on; the orphans left are those whose parent is none of these
blocks (`Cascade`).
-/

namespace NovaCoin

open List

open AssocMap (lookup_insert_ite lookup_erase_ite mem_of_lookup)

/-! ## AcceptBlock -/

theorem mapBlockIndex_addToBlockIndex (crypto : Crypto) (st : ChainState) (b : CBlock)
    (nFile nBlockPos : UInt32) (out : Outcomes)
    (hnew : st.mapBlockIndex (crypto.blockHash b) = none) :
    (out.indexOk = false ∧ (addToBlockIndex crypto st b nFile nBlockPos out).1 = st ∧
      (addToBlockIndex crypto st b nFile nBlockPos out).2 = false) ∨
    (out.indexOk ∧ ∃ pindexNew,
      (addToBlockIndex crypto st b nFile nBlockPos out).1.mapBlockIndex = fun h =>
        if h = crypto.blockHash b then some pindexNew else st.mapBlockIndex h) := by
  simp only [addToBlockIndex, hnew, Option.isSome_none, Bool.false_or]
  cases out.indexOk with
  | false => exact .inl ⟨rfl, rfl, rfl⟩
  | true =>
    refine .inr ⟨rfl, ?_⟩
    simp only [Bool.not_true, Bool.false_eq_true, if_false]
    split
    · exact ⟨_, rfl⟩
    · split
      · exact ⟨_, mapBlockIndex_setBestChain _ _ _ _⟩
      · exact ⟨_, rfl⟩

/-- When `AddToBlockIndex` has inserted the block, nothing fails: the record is committed and, if
the block has more trust than the best chain, `SetBestChain` succeeds. -/
def BlockOutcomes.Succeeds (crypto : Crypto) (out : BlockOutcomes) (st : ChainState) (b : CBlock) :
    Prop :=
  let pprev := (st.mapBlockIndex b.hashPrevBlock).getD []
  let pindexNew := newBlockIndex crypto pprev b out.nFile out.nBlockPos :: pprev
  out.index.commitIndex = true ∧ (st.nBestChainTrust < chainTrust pindexNew →
    if b.hashPrevBlock = st.hashBestChain then
      (out.index.connectBlock (crypto.blockHash b) && out.index.commit (crypto.blockHash b)) = true
    else (canReorganize out.index st.pindexBest
      (postpone (chainTrust st.pindexBest) pindexNew).2).isSome = true)

theorem setBestChainInner_ok (out : Outcomes) (st : ChainState) (pindexNew : PIndex) :
    (setBestChainInner out st pindexNew).2 =
      (out.connectBlock (getBlockHash pindexNew) && out.commit (getBlockHash pindexNew)) := by
  unfold setBestChainInner
  cases hconnect : out.connectBlock (getBlockHash pindexNew) with
  | false => simp [hconnect]
  | true =>
    cases hcommit : out.commit (getBlockHash pindexNew) with
    | false => simp [hconnect, hcommit]
    | true => simp [hconnect, hcommit]

theorem isSome_reorganize (out : Outcomes) (st : ChainState) (pindexNew : PIndex) :
    (reorganize out st pindexNew).isSome = (canReorganize out st.pindexBest pindexNew).isSome := by
  unfold reorganize
  split
  · next h => rw [h, Option.isSome_none, Option.isSome_none]
  · next h => rw [h, Option.isSome_some, Option.isSome_some]

theorem setBestChain_ok_iff (out : Outcomes) (st : ChainState) (hashPrevBlock : Uint256)
    (pindexNew : PIndex) :
    (setBestChain out st hashPrevBlock pindexNew).2 = true ↔
      if hashPrevBlock = st.hashBestChain then
        (out.connectBlock (getBlockHash pindexNew) && out.commit (getBlockHash pindexNew)) = true
      else (canReorganize out st.pindexBest
        (postpone (chainTrust st.pindexBest) pindexNew).2).isSome = true := by
  have hswitch : (setBestChain out st hashPrevBlock pindexNew).2 =
      (switchChain out st hashPrevBlock pindexNew).2 := by
    unfold setBestChain
    split
    · next h => rw [h]
    · next h => rw [h]
  rw [hswitch]
  unfold switchChain
  by_cases hprev : hashPrevBlock = st.hashBestChain
  · rw [if_pos hprev, if_pos hprev, setBestChainInner_ok]
  · rw [if_neg hprev, if_neg hprev]
    have hreorganize := isSome_reorganize out { st with txdb := st.txdb.txnBegin }
      (postpone (chainTrust st.pindexBest) pindexNew).2
    simp only at hreorganize ⊢
    rw [← hreorganize]
    split
    · next h => simp [h]
    · next h => simp [h]

theorem addToBlockIndex_ok_iff (crypto : Crypto) (out : BlockOutcomes) (st : ChainState) (b : CBlock)
    (hnew : st.mapBlockIndex (crypto.blockHash b) = none) (hindex : out.index.indexOk) :
    (addToBlockIndex crypto st b out.nFile out.nBlockPos out.index).2 ↔
      out.Succeeds crypto st b := by
  unfold addToBlockIndex BlockOutcomes.Succeeds
  rw [if_neg (by simp [hnew, hindex])]
  cases hcommit : out.index.commitIndex with
  | false => simp
  | true =>
    simp only [Bool.not_true, Bool.false_eq_true, if_false, true_and]
    split
    · next htrust =>
      rw [setBestChain_ok_iff]
      exact ⟨fun h _ => h, fun h => h htrust⟩
    · next htrust => exact ⟨fun _ h => absurd h htrust, fun _ => rfl⟩

/-- The orphans are the same. -/
structure SameOrphans (node node' : BlockNode) : Prop where
  mapOrphanBlocks : node'.mapOrphanBlocks = node.mapOrphanBlocks
  byPrev : node'.mapOrphanBlocksByPrev = node.mapOrphanBlocksByPrev
  stakes : node'.setStakeSeenOrphan = node.setStakeSeenOrphan

theorem SameOrphans.refl (node : BlockNode) : SameOrphans node node := ⟨rfl, rfl, rfl⟩

/-- The checks up to the insertion into `mapBlockIndex` succeed. -/
def BlockOutcomes.Inserts (out : BlockOutcomes) : Prop :=
  out.acceptOk = true ∧ out.index.indexOk = true

/-- `AcceptBlock` for a block whose parent is in the block index: it inserts it if the checks
succeed, whether it returns `true` or not. -/
theorem acceptBlock_spec (crypto : Crypto) (out : BlockOutcomes) (node : BlockNode) (b : CBlock)
    (hparent : (node.chain.mapBlockIndex b.hashPrevBlock).isSome) :
    SameOrphans node (acceptBlock crypto out node b).1 ∧
      (∀ hash, ((acceptBlock crypto out node b).1.chain.mapBlockIndex hash).isSome ↔
        (node.chain.mapBlockIndex hash).isSome ∨ (crypto.blockHash b = hash ∧ out.Inserts)) ∧
      ((acceptBlock crypto out node b).2 ↔
        node.chain.mapBlockIndex (crypto.blockHash b) = none ∧ out.Inserts ∧
          out.Succeeds crypto node.chain b) := by
  unfold acceptBlock
  split
  · next hknown =>
    refine ⟨.refl node, fun hash => ⟨.inl, ?_⟩, nofun, ?_⟩
    · rintro (hsome | ⟨rfl, -⟩)
      · exact hsome
      · exact hknown
    · rintro ⟨hnew, -⟩
      rw [hnew] at hknown
      cases hknown
  · next hnew =>
    rw [Option.not_isSome_iff_eq_none] at hnew
    rw [if_neg (by rw [Option.isNone_iff_eq_none, ← ne_eq, ← Option.isSome_iff_ne_none]; exact hparent)]
    by_cases haccept : out.acceptOk
    swap
    · rw [if_pos (by simpa using haccept)]
      refine ⟨.refl node, fun hash => ⟨.inl, ?_⟩, nofun, fun h => absurd h.2.1.1 haccept⟩
      rintro (hsome | ⟨-, hinserts⟩)
      · exact hsome
      · exact absurd hinserts.1 haccept
    rw [if_neg (by simpa using haccept)]
    rcases mapBlockIndex_addToBlockIndex crypto node.chain b out.nFile out.nBlockPos out.index hnew
      with ⟨hindex, hsame, hfalse⟩ | ⟨hindex, pindexNew, hmap⟩
    · have hno : ¬ out.Inserts := fun hinserts => by cases hindex.symm.trans hinserts.2
      refine ⟨⟨rfl, rfl, rfl⟩, fun hash => ?_, ?_⟩
      · simp only [hsame, hno, and_false, or_false]
      · simp only [hfalse, hno, false_and, and_false, Bool.false_eq_true]
    · have hinserts : out.Inserts := ⟨haccept, hindex⟩
      refine ⟨⟨rfl, rfl, rfl⟩, fun hash => ?_, ?_⟩
      · simp only [hmap]
        split
        · next heq => exact ⟨fun _ => .inr ⟨heq.symm, hinserts⟩, fun _ => rfl⟩
        · next hne => exact ⟨.inl, fun h => h.resolve_right fun h' => hne h'.1.symm⟩
      · simp only [hnew, hinserts, true_and]
        exact addToBlockIndex_ok_iff crypto out node.chain b hnew hindex

/-! ## The orphans of one block -/

/-- The kernel is taken out of `setStakeSeenOrphan` when the block is visited. -/
def Forgets (crypto : Crypto) (outs : Uint256 → BlockOutcomes) (b : CBlock) (stake : Stake) : Prop :=
  b.isProofOfStake = true ∧ (outs (crypto.blockHash b)).checkProofOfStake = true ∧
    b.getProofOfStake = stake

/-- The block is in the block index when it has been visited. -/
def Inserted (crypto : Crypto) (outs : Uint256 → BlockOutcomes) (b : CBlock) : Prop :=
  (b.isProofOfStake = true → (outs (crypto.blockHash b)).checkProofOfStake = true) ∧
    (outs (crypto.blockHash b)).Inserts

/-- What visits of some orphans do, whose parents are in the block index. -/
structure Visited (crypto : Crypto) (outs : Uint256 → BlockOutcomes) (blocks : List CBlock)
    (w w' : BlockWork) : Prop where
  byPrev : w'.node.mapOrphanBlocksByPrev = w.node.mapOrphanBlocksByPrev
  lookup : ∀ hash b, w'.node.mapOrphanBlocks.lookup hash = some b ↔
    w.node.mapOrphanBlocks.lookup hash = some b ∧ hash ∉ blocks.map crypto.blockHash
  stakes : ∀ stake, stake ∈ w'.node.setStakeSeenOrphan ↔
    stake ∈ w.node.setStakeSeenOrphan ∧ ¬ ∃ b ∈ blocks, Forgets crypto outs b stake
  known : ∀ hash, (w'.node.chain.mapBlockIndex hash).isSome ↔
    (w.node.chain.mapBlockIndex hash).isSome ∨
      ∃ b ∈ blocks, crypto.blockHash b = hash ∧ Inserted crypto outs b
  queue : ∃ accepted, w'.vWorkQueue = w.vWorkQueue ++ accepted ∧ accepted.Nodup ∧
    ∀ hash ∈ accepted, hash ∈ blocks.map crypto.blockHash ∧
      w.node.chain.mapBlockIndex hash = none ∧ (w'.node.chain.mapBlockIndex hash).isSome

variable {hash : Uint256} {crypto : Crypto} {outs : Uint256 → BlockOutcomes}

section

/-! The loop on a node alone, step by step. -/

theorem acceptOrphan_eq (out : BlockOutcomes) (w : BlockWork) (b : CBlock) :
    acceptOrphan crypto out w b = match acceptBlock crypto out w.node b with
      | (node, true) => ⟨node, w.vWorkQueue ++ [crypto.blockHash b]⟩
      | (node, false) => ⟨node, w.vWorkQueue⟩ := by
  have haccept : (blockLoop crypto).acceptBlock out w.node b = acceptBlock crypto out w.node b := rfl
  rw [acceptOrphan, OrphanLoop.acceptOrphan, haccept]
  rcases acceptBlock crypto out w.node b with ⟨_, _ | _⟩ <;> rfl

theorem visitOrphanBlock_eq (w : BlockWork) (b : CBlock) :
    visitOrphanBlock crypto outs w b =
      let accepted := acceptOrphan crypto (outs (crypto.blockHash b)) w b
      let w := if b.isProofOfStake then
          if (outs (crypto.blockHash b)).checkProofOfStake then
            { accepted with node := { accepted.node with
                setStakeSeenOrphan := accepted.node.setStakeSeenOrphan.erase b.getProofOfStake } }
          else w
        else accepted
      { w with node := { w.node with
          mapOrphanBlocks := w.node.mapOrphanBlocks.erase (crypto.blockHash b) } } := rfl

theorem visitPrevBlock_eq (w : BlockWork) (p : Uint256) :
    visitPrevBlock crypto outs w p =
      let w := (w.node.waitingFor p).foldl (visitOrphanBlock crypto outs) w
      { w with node := { w.node with
          mapOrphanBlocksByPrev :=
            w.node.mapOrphanBlocksByPrev.filter fun entry => entry.1 != p } } := rfl

/-- `acceptOrphan` changes the chain, and the queue if the block is accepted. -/
theorem acceptOrphan_spec (crypto : Crypto) (out : BlockOutcomes) (w : BlockWork) (b : CBlock)
    (hparent : (w.node.chain.mapBlockIndex b.hashPrevBlock).isSome) :
    SameOrphans w.node (acceptOrphan crypto out w b).node ∧
      (∀ hash, ((acceptOrphan crypto out w b).node.chain.mapBlockIndex hash).isSome ↔
        (w.node.chain.mapBlockIndex hash).isSome ∨ (crypto.blockHash b = hash ∧ out.Inserts)) ∧
      ∃ accepted, (acceptOrphan crypto out w b).vWorkQueue = w.vWorkQueue ++ accepted ∧
        accepted.Nodup ∧ ∀ hash ∈ accepted, hash ∈ [b].map crypto.blockHash ∧
          w.node.chain.mapBlockIndex hash = none ∧
          ((acceptOrphan crypto out w b).node.chain.mapBlockIndex hash).isSome := by
  obtain ⟨hsame, hknown, hok⟩ := acceptBlock_spec crypto out w.node b hparent
  rw [acceptOrphan_eq]
  rcases h : acceptBlock crypto out w.node b with ⟨node, _ | _⟩
  · rw [h] at hsame hknown
    exact ⟨hsame, hknown, [], (append_nil _).symm, nodup_nil, nofun⟩
  · rw [h] at hsame hknown hok
    refine ⟨hsame, hknown, [crypto.blockHash b], rfl, nodup_singleton _, fun hash hmem => ?_⟩
    rw [mem_singleton.mp hmem]
    obtain ⟨hnew, hinserts, -⟩ := hok.mp rfl
    exact ⟨mem_singleton_self _, hnew, (hknown _).mpr (.inr ⟨rfl, hinserts⟩)⟩

variable {w w' : BlockWork} {blocks blocks' : List CBlock}

theorem vWorkQueue_visitOrphanBlock {b : CBlock}
    (hcheck : b.isProofOfStake → (outs (crypto.blockHash b)).checkProofOfStake) :
    (visitOrphanBlock crypto outs w b).vWorkQueue =
      if (acceptBlock crypto (outs (crypto.blockHash b)) w.node b).2 then
        w.vWorkQueue ++ [crypto.blockHash b]
      else w.vWorkQueue := by
  have htry : (visitOrphanBlock crypto outs w b).vWorkQueue =
      (acceptOrphan crypto (outs (crypto.blockHash b)) w b).vWorkQueue := by
    simp only [visitOrphanBlock_eq]
    split
    · next hstake => rw [if_pos (hcheck hstake)]
    · rfl
  rw [htry, acceptOrphan_eq]
  split
  · next h => rw [h, if_pos rfl]
  · next h => rw [h, if_neg Bool.false_ne_true]

/-- An orphan that is accepted is queued; one that is refused is only removed. -/
theorem visitOrphanBlock_visited (w : BlockWork) (b : CBlock)
    (hparent : (w.node.chain.mapBlockIndex b.hashPrevBlock).isSome) :
    Visited crypto outs [b] w (visitOrphanBlock crypto outs w b) := by
  have hlookup : ∀ (m : AList fun _ : Uint256 => CBlock) (hash : Uint256) (c : CBlock),
      (m.erase (crypto.blockHash b)).lookup hash = some c ↔
        m.lookup hash = some c ∧ hash ∉ [b].map crypto.blockHash := by
    intro m hash c
    rw [lookup_erase_ite, map_singleton]
    split
    · next heq => simp [heq]
    · next hne => simp [hne]
  obtain ⟨hsame, hknown, accepted, hqueue⟩ :=
    acceptOrphan_spec crypto (outs (crypto.blockHash b)) w b hparent
  simp only [visitOrphanBlock_eq]
  by_cases hstake : b.isProofOfStake
  · by_cases hcheck : (outs (crypto.blockHash b)).checkProofOfStake
    · rw [if_pos hstake, if_pos hcheck]
      refine ⟨hsame.byPrev, ?_, ?_, ?_, accepted, hqueue⟩
      · rw [← hsame.mapOrphanBlocks]
        exact hlookup _
      · intro stake
        simp only [Finset.mem_erase, hsame.stakes, mem_singleton, exists_eq_left, Forgets,
          hstake, hcheck, true_and]
        rw [and_comm, eq_comm]
      · intro hash
        simp only [hknown, mem_singleton, exists_eq_left, Inserted, hcheck, implies_true,
          true_and]
    · rw [if_pos hstake, if_neg hcheck]
      refine ⟨rfl, hlookup _, ?_, ?_, [], (append_nil _).symm, nodup_nil, nofun⟩
      · intro stake
        simp only [mem_singleton, exists_eq_left, Forgets, hstake, hcheck]
        simp
      · intro hash
        simp only [mem_singleton, exists_eq_left, Inserted, hstake, hcheck]
        simp
  · rw [if_neg hstake]
    refine ⟨hsame.byPrev, ?_, ?_, ?_, accepted, hqueue⟩
    · rw [← hsame.mapOrphanBlocks]
      exact hlookup _
    · intro stake
      simp only [hsame.stakes, mem_singleton, exists_eq_left, Forgets, hstake]
      simp
    · intro hash
      simp only [hknown, mem_singleton, exists_eq_left, Inserted, hstake]
      simp

theorem exists_mem_append {P : CBlock → Prop} :
    (∃ b ∈ blocks ++ blocks', P b) ↔ (∃ b ∈ blocks, P b) ∨ ∃ b ∈ blocks', P b := by
  simp only [mem_append, or_and_right, exists_or]

/-- Visits compose: what one inserts is known to the next. -/
theorem Visited.trans {w'' : BlockWork} (h : Visited crypto outs blocks w w')
    (h' : Visited crypto outs blocks' w' w'') :
    Visited crypto outs (blocks ++ blocks') w w'' := by
  obtain ⟨accepted, hqueue, hnodup, haccepted⟩ := h.queue
  obtain ⟨accepted', hqueue', hnodup', haccepted'⟩ := h'.queue
  refine ⟨h'.byPrev.trans h.byPrev, ?_, ?_, ?_, accepted ++ accepted', ?_, ?_, ?_⟩
  · intro hash b
    rw [h'.lookup, h.lookup, map_append, mem_append, not_or, and_assoc]
  · intro stake
    rw [h'.stakes, h.stakes, and_assoc, ← not_or, exists_mem_append]
  · intro hash
    rw [h'.known, h.known, or_assoc, exists_mem_append]
  · rw [hqueue', hqueue, append_assoc]
  · refine nodup_append.mpr ⟨hnodup, hnodup', ?_⟩
    -- what was accepted first is in the block index, what is accepted later was not
    rintro hash hfirst _ hlater rfl
    have hnone := (haccepted' hash hlater).2.1
    have hsome := (haccepted hash hfirst).2.2
    rw [hnone] at hsome
    cases hsome
  · intro hash hmem
    rw [map_append, mem_append]
    rcases mem_append.mp hmem with hmem | hmem
    · obtain ⟨hb, hnone, hsome⟩ := haccepted hash hmem
      exact ⟨.inl hb, hnone, (h'.known hash).mpr (.inl hsome)⟩
    · obtain ⟨hb, hnone, hsome⟩ := haccepted' hash hmem
      refine ⟨.inr hb, ?_, hsome⟩
      by_contra hne
      have hknown := (h.known hash).mpr (.inl (Option.isSome_iff_ne_none.mpr hne))
      rw [hnone] at hknown
      cases hknown

theorem Visited.queue_known (h : Visited crypto outs blocks w w')
    (hw : ∀ hash ∈ w.vWorkQueue, (w.node.chain.mapBlockIndex hash).isSome) :
    ∀ hash ∈ w'.vWorkQueue, (w'.node.chain.mapBlockIndex hash).isSome := by
  obtain ⟨accepted, hqueue, -, haccepted⟩ := h.queue
  intro hash hmem
  rw [hqueue] at hmem
  rcases mem_append.mp hmem with hmem | hmem
  · exact (h.known hash).mpr (.inl (hw hash hmem))
  · exact (haccepted hash hmem).2.2

/-- The block is in the block index, but not in the queue. -/
def Refused (hash : Uint256) (w : BlockWork) : Prop :=
  (w.node.chain.mapBlockIndex hash).isSome ∧ hash ∉ w.vWorkQueue

theorem Visited.refused (h : Visited crypto outs blocks w w') (hw : Refused hash w) :
    Refused hash w' := by
  obtain ⟨hknown, hnotin⟩ := hw
  obtain ⟨accepted, hqueue, -, haccepted⟩ := h.queue
  refine ⟨(h.known hash).mpr (.inl hknown), ?_⟩
  rw [hqueue, mem_append]
  rintro (hmem | hmem)
  · exact hnotin hmem
  · rw [(haccepted hash hmem).2.1] at hknown
    cases hknown

variable (crypto outs)

theorem foldl_visitOrphanBlock_visited : ∀ (blocks : List CBlock) (w : BlockWork),
    (∀ b ∈ blocks, (w.node.chain.mapBlockIndex b.hashPrevBlock).isSome) →
    Visited crypto outs blocks w (blocks.foldl (visitOrphanBlock crypto outs) w)
  | [], w, _ => ⟨rfl, fun _ _ => by simp, fun _ => by simp, fun _ => by simp, [],
      (append_nil _).symm, nodup_nil, nofun⟩
  | b :: blocks, w, hparents => by
    rw [forall_mem_cons] at hparents
    have hfirst : Visited crypto outs [b] w (visitOrphanBlock crypto outs w b) :=
      visitOrphanBlock_visited w b hparents.1
    exact hfirst.trans (foldl_visitOrphanBlock_visited blocks _ fun c hc =>
      (hfirst.known _).mpr (.inl (hparents.2 c hc)))

end

/-! ## All orphans of a call -/

/-- `mapOrphanBlocksByPrev` is the index of `mapOrphanBlocks` by `hashPrevBlock`. -/
structure BlockNode.Indexed (crypto : Crypto) (node : BlockNode) : Prop where
  keyed : ∀ hash b, node.mapOrphanBlocks.lookup hash = some b → crypto.blockHash b = hash
  nodup : node.mapOrphanBlocksByPrev.Nodup
  mem_byPrev : ∀ p b, (p, b) ∈ node.mapOrphanBlocksByPrev ↔
    p = b.hashPrevBlock ∧ node.mapOrphanBlocks.lookup (crypto.blockHash b) = some b

theorem mem_waitingFor {node : BlockNode} {p : Uint256} {b : CBlock} :
    b ∈ node.waitingFor p ↔ (p, b) ∈ node.mapOrphanBlocksByPrev := by
  simp only [BlockNode.waitingFor, mem_map, mem_filter, beq_iff_eq]
  constructor
  · rintro ⟨⟨q, c⟩, ⟨hmem, rfl⟩, rfl⟩
    exact hmem
  · exact fun hmem => ⟨(p, b), ⟨hmem, rfl⟩, rfl⟩

/-- The orphans of the blocks in `done` have been visited. In the block index are those of `known₀`
and the orphans that came into it. -/
structure Cascade (crypto : Crypto) (outs : Uint256 → BlockOutcomes) (known₀ : Uint256 → Prop)
    (node₀ : BlockNode) (done : List Uint256) (node : BlockNode) : Prop where
  byPrev : node.mapOrphanBlocksByPrev =
    node₀.mapOrphanBlocksByPrev.filter fun entry => entry.1 ∉ done
  lookup : ∀ hash b, node.mapOrphanBlocks.lookup hash = some b ↔
    node₀.mapOrphanBlocks.lookup hash = some b ∧ b.hashPrevBlock ∉ done
  stakes : ∀ stake, stake ∈ node.setStakeSeenOrphan ↔ stake ∈ node₀.setStakeSeenOrphan ∧
    ¬ ∃ hash b, node₀.mapOrphanBlocks.lookup hash = some b ∧ b.hashPrevBlock ∈ done ∧
      Forgets crypto outs b stake
  known : ∀ hash, (node.chain.mapBlockIndex hash).isSome ↔ known₀ hash ∨
    ∃ hash' b, node₀.mapOrphanBlocks.lookup hash' = some b ∧ b.hashPrevBlock ∈ done ∧
      crypto.blockHash b = hash ∧ Inserted crypto outs b

section

variable {known₀ : Uint256 → Prop} {node₀ : BlockNode}

variable {node : BlockNode} {done : List Uint256} {p : Uint256} {w : BlockWork}

theorem SameOrphans.cascade (h : SameOrphans node₀ node)
    (hknown : ∀ hash, (node.chain.mapBlockIndex hash).isSome ↔ known₀ hash) :
    Cascade crypto outs known₀ node₀ [] node := by
  refine ⟨?_, ?_, ?_, ?_⟩
  · rw [h.byPrev]
    simp
  · rw [h.mapOrphanBlocks]
    simp
  · rw [h.stakes]
    simp
  · simp [hknown]

section

variable (h : Cascade crypto outs known₀ node₀ done node) (h₀ : node₀.Indexed crypto)
include h h₀

theorem Cascade.indexed : node.Indexed crypto where
  keyed hash b hb := h₀.keyed hash b ((h.lookup hash b).mp hb).1
  nodup := by
    rw [h.byPrev]
    exact h₀.nodup.filter _
  mem_byPrev p b := by
    rw [h.byPrev, mem_filter, decide_eq_true_eq, h₀.mem_byPrev, h.lookup, and_assoc]
    exact and_congr_right fun hp => by rw [hp]

theorem Cascade.mem_waitingFor {b : CBlock} : b ∈ node.waitingFor p ↔ p = b.hashPrevBlock ∧
      node₀.mapOrphanBlocks.lookup (crypto.blockHash b) = some b ∧ p ∉ done := by
  rw [NovaCoin.mem_waitingFor, (h.indexed h₀).mem_byPrev, h.lookup]
  constructor
  · rintro ⟨rfl, hb⟩
    exact ⟨rfl, hb⟩
  · rintro ⟨rfl, hb⟩
    exact ⟨rfl, hb⟩

/-- Of the orphans of the blocks in `done` and the next, some are visited in the next round. -/
theorem Cascade.exists_visited (p : Uint256) (P : CBlock → Prop) :
    (∃ hash b, node₀.mapOrphanBlocks.lookup hash = some b ∧ b.hashPrevBlock ∈ done ++ [p] ∧ P b) ↔
      (∃ hash b, node₀.mapOrphanBlocks.lookup hash = some b ∧ b.hashPrevBlock ∈ done ∧ P b) ∨
        ∃ b ∈ node.waitingFor p, P b := by
  constructor
  · rintro ⟨hash, b, hb, hmem, hP⟩
    by_cases hdone : b.hashPrevBlock ∈ done
    · exact .inl ⟨hash, b, hb, hdone, hP⟩
    · obtain rfl := h₀.keyed hash b hb
      have hp : b.hashPrevBlock = p := by
        rcases mem_append.mp hmem with hmem | hmem
        · exact absurd hmem hdone
        · exact mem_singleton.mp hmem
      subst hp
      exact .inr ⟨b, (h.mem_waitingFor h₀).mpr ⟨rfl, hb, hdone⟩, hP⟩
  · rintro (⟨hash, b, hb, hdone, hP⟩ | ⟨b, hb, hP⟩)
    · exact ⟨hash, b, hb, mem_append_left _ hdone, hP⟩
    · obtain ⟨hp, hb, -⟩ := (h.mem_waitingFor h₀).mp hb
      refine ⟨_, b, hb, ?_, hP⟩
      rw [← hp]
      exact mem_append_right _ (mem_singleton_self p)

end

theorem Cascade.visited (h₀ : node₀.Indexed crypto)
    (h : Cascade crypto outs known₀ node₀ done w.node) (hp : (w.node.chain.mapBlockIndex p).isSome)
    {blocks : List CBlock} (hblocks : blocks ⊆ w.node.waitingFor p) :
    Visited crypto outs blocks w (blocks.foldl (visitOrphanBlock crypto outs) w) := by
  refine foldl_visitOrphanBlock_visited crypto outs _ w fun b hb => ?_
  rw [← ((h.mem_waitingFor h₀).mp (hblocks hb)).1]
  exact hp

/-- One round of the outer loop: all orphans of `p` are visited. -/
theorem Cascade.visitPrevBlock (h₀ : node₀.Indexed crypto)
    (h : Cascade crypto outs known₀ node₀ done w.node)
    (hp : (w.node.chain.mapBlockIndex p).isSome) :
    Cascade crypto outs known₀ node₀ (done ++ [p]) (visitPrevBlock crypto outs w p).node := by
  have hvisited := h.visited h₀ hp (List.Subset.refl _)
  refine ⟨?_, ?_, ?_, ?_⟩
  · simp only [visitPrevBlock_eq, hvisited.byPrev, h.byPrev, filter_filter]
    refine filter_congr fun entry _ => ?_
    rw [Bool.eq_iff_iff]
    simp [and_comm]
  · intro hash b
    simp only [visitPrevBlock_eq]
    rw [hvisited.lookup, h.lookup, and_assoc, mem_append, mem_singleton, not_or]
    refine and_congr_right fun hb => and_congr_right fun hdone => not_congr ?_
    obtain rfl := h₀.keyed hash b hb
    rw [mem_map]
    constructor
    · rintro ⟨c, hc, heq⟩
      obtain ⟨hp, hc, -⟩ := (h.mem_waitingFor h₀).mp hc
      rw [heq, hb] at hc
      cases hc
      exact hp.symm
    · rintro rfl
      exact ⟨b, (h.mem_waitingFor h₀).mpr ⟨rfl, hb, hdone⟩, rfl⟩
  · intro stake
    simp only [visitPrevBlock_eq]
    rw [hvisited.stakes, h.stakes, and_assoc, ← not_or, h.exists_visited h₀ p]
  · intro hash
    simp only [visitPrevBlock_eq]
    rw [hvisited.known, h.known, or_assoc, h.exists_visited h₀ p]

/-- The queue has the received block and accepted orphans, each once. -/
structure QueueOk (crypto : Crypto) (node₀ : BlockNode) (w : BlockWork) : Prop where
  nodup : w.vWorkQueue.Nodup
  known : ∀ hash ∈ w.vWorkQueue, (w.node.chain.mapBlockIndex hash).isSome
  orphans : ∀ hash ∈ w.vWorkQueue.tail, hash ∈ node₀.mapOrphanBlocks
  ne_nil : w.vWorkQueue ≠ []

theorem QueueOk.length_le (h : QueueOk crypto node₀ w) :
    w.vWorkQueue.length ≤ node₀.mapOrphanBlocks.keys.length + 1 := by
  have hsub : w.vWorkQueue.tail ⊆ node₀.mapOrphanBlocks.keys := fun hash hmem =>
    AList.mem_keys.mp (h.orphans hash hmem)
  have hle := (h.nodup.tail.subperm hsub).length_le
  rw [length_tail] at hle
  omega

theorem QueueOk.visitPrevBlock (h₀ : node₀.Indexed crypto)
    (hw : Cascade crypto outs known₀ node₀ done w.node) (h : QueueOk crypto node₀ w)
    (hp : (w.node.chain.mapBlockIndex p).isSome) :
    QueueOk crypto node₀ (visitPrevBlock crypto outs w p) ∧
      w.vWorkQueue <+: (NovaCoin.visitPrevBlock crypto outs w p).vWorkQueue := by
  have hvisited := hw.visited h₀ hp (List.Subset.refl _)
  obtain ⟨accepted, hqueue, hnodup, haccepted⟩ := hvisited.queue
  refine ⟨⟨?_, ?_, ?_, ?_⟩, accepted, hqueue.symm⟩
  · simp only [visitPrevBlock_eq, hqueue]
    refine nodup_append.mpr ⟨h.nodup, hnodup, ?_⟩
    rintro hash hold _ hnew rfl
    have hknown := h.known hash hold
    rw [(haccepted hash hnew).2.1] at hknown
    cases hknown
  · exact hvisited.queue_known h.known
  · intro hash hmem
    simp only [visitPrevBlock_eq, hqueue, tail_append_of_ne_nil h.ne_nil] at hmem
    rcases mem_append.mp hmem with hmem | hmem
    · exact h.orphans hash hmem
    · obtain ⟨b, hb, rfl⟩ := mem_map.mp (haccepted hash hmem).1
      exact mem_of_lookup ((hw.mem_waitingFor h₀).mp hb).2.1
  · simp only [visitPrevBlock_eq, hqueue]
    exact append_ne_nil_of_left_ne_nil h.ne_nil _

/-- The two loops: what has been visited, and what is in the queue. -/
def LoopInv (crypto : Crypto) (outs : Uint256 → BlockOutcomes) (known₀ : Uint256 → Prop)
    (node₀ : BlockNode) (i : Nat) (w : BlockWork) : Prop :=
  Cascade crypto outs known₀ node₀ (w.vWorkQueue.take i) w.node ∧ QueueOk crypto node₀ w

theorem LoopInv.round (h₀ : node₀.Indexed crypto) (i : Nat) (w : BlockWork) (p : Uint256)
    (h : LoopInv crypto outs known₀ node₀ i w) (hi : w.vWorkQueue[i]? = some p) :
    LoopInv crypto outs known₀ node₀ (i + 1) (visitPrevBlock crypto outs w p) := by
  obtain ⟨hcascade, hqueue⟩ := h
  have hp := hqueue.known p (mem_of_getElem? hi)
  obtain ⟨hqueue', more, hmore⟩ := hqueue.visitPrevBlock h₀ hcascade hp
  obtain ⟨hlt, -⟩ := List.getElem?_eq_some_iff.mp hi
  refine ⟨?_, hqueue'⟩
  rw [← hmore, take_append_of_le_length hlt, take_add_one, hi]
  exact hcascade.visitPrevBlock h₀ hp

theorem QueueOk.start (hknown : (node.chain.mapBlockIndex hash).isSome) :
    QueueOk crypto node₀ ⟨node, [hash]⟩ := by
  refine ⟨nodup_singleton _, ?_, nofun, nofun⟩
  intro k hk
  rw [mem_singleton.mp hk]
  exact hknown

/-! ## A call -/

structure Orphaned (crypto : Crypto) (node : BlockNode) (b : CBlock) (node' : BlockNode) : Prop where
  fresh : crypto.blockHash b ∉ node.mapOrphanBlocks
  parent : node.chain.mapBlockIndex b.hashPrevBlock = none
  chain : node'.chain = node.chain
  mapOrphanBlocks : node'.mapOrphanBlocks = node.mapOrphanBlocks.insert (crypto.blockHash b) b
  byPrev : node'.mapOrphanBlocksByPrev = node.mapOrphanBlocksByPrev ++ [(b.hashPrevBlock, b)]
  stakes : node'.setStakeSeenOrphan =
    if b.isProofOfStake then insert b.getProofOfStake node.setStakeSeenOrphan
    else node.setStakeSeenOrphan

theorem Orphaned.indexed {node' : BlockNode} {b : CBlock} (h : node.Indexed crypto)
    (h' : Orphaned crypto node b node') : node'.Indexed crypto := by
  have hnone : node.mapOrphanBlocks.lookup (crypto.blockHash b) = none :=
    AList.lookup_eq_none.mpr h'.fresh
  refine ⟨?_, ?_, ?_⟩
  · intro hash c hc
    rw [h'.mapOrphanBlocks, lookup_insert_ite] at hc
    split at hc
    · next heq =>
      cases hc
      exact heq.symm
    · exact h.keyed hash c hc
  · rw [h'.byPrev]
    refine nodup_append.mpr ⟨h.nodup, nodup_singleton _, ?_⟩
    rintro entry hold _ hnew rfl
    rw [mem_singleton.mp hnew, h.mem_byPrev, hnone] at hold
    cases hold.2
  · intro p c
    rw [h'.byPrev, h'.mapOrphanBlocks, mem_append, mem_singleton, h.mem_byPrev,
      lookup_insert_ite, Prod.mk.injEq]
    split
    · next heq =>
      rw [heq, hnone, Option.some.injEq]
      constructor
      · rintro (⟨-, hc⟩ | ⟨rfl, rfl⟩)
        · cases hc
        · exact ⟨rfl, rfl⟩
      · rintro ⟨rfl, rfl⟩
        exact .inr ⟨rfl, rfl⟩
    · next hne =>
      constructor
      · rintro (hc | ⟨rfl, rfl⟩)
        · exact hc
        · exact absurd rfl hne
      · exact .inl

variable (crypto) in
/-- The received block gets to `AcceptBlock`. -/
def ReachesAccept (node : BlockNode) (call : BlockCall) : Prop :=
  checkReceived crypto node call = true ∧
    (node.chain.mapBlockIndex call.received.hashPrevBlock).isSome = true ∧
    (call.received.isProofOfStake = true →
      (call.outs (crypto.blockHash call.received)).checkProofOfStake = true)

variable (crypto) in
def acceptReceived (node : BlockNode) (call : BlockCall) : BlockNode × Bool :=
  acceptBlock crypto (call.outs (crypto.blockHash call.received)) node call.received

variable (crypto) in
/-- The block index when `AcceptBlock` has returned for the received block. -/
def KnownAfter (node : BlockNode) (call : BlockCall) (hash : Uint256) : Prop :=
  (node.chain.mapBlockIndex hash).isSome ∨ (crypto.blockHash call.received = hash ∧
    ReachesAccept crypto node call ∧ (call.outs (crypto.blockHash call.received)).Inserts)

variable (crypto) in
/-- What a call does: it refuses the block, makes it an orphan, `AcceptBlock` fails, or the loops
run over the orphans. -/
inductive Processed (node : BlockNode) (call : BlockCall) : BlockWork → Prop
  | refused (h : ¬ ReachesAccept crypto node call) : Processed node call ⟨node, []⟩
  | orphaned {node' : BlockNode} (h : ¬ ReachesAccept crypto node call)
      (h' : Orphaned crypto node call.received node') : Processed node call ⟨node', []⟩
  | failed {node' : BlockNode} (h : ReachesAccept crypto node call)
      (haccept : acceptReceived crypto node call = (node', false)) : Processed node call ⟨node', []⟩
  | accepted {node' : BlockNode} {w : BlockWork} (h : ReachesAccept crypto node call)
      (haccept : acceptReceived crypto node call = (node', true))
      (hrun : WorkQueue.run OrphanWork.vWorkQueue (visitPrevBlock crypto call.outs)
        (node'.mapOrphanBlocks.keys.length + 2) 0 ⟨node', [crypto.blockHash call.received]⟩ = some w) :
      Processed node call w

section

variable {call : BlockCall}

theorem ReachesAccept.mapBlockIndex_eq_none (h : ReachesAccept crypto node call) :
    node.chain.mapBlockIndex (crypto.blockHash call.received) = none := by
  have hchecks := h.1
  simp only [checkReceived, Bool.and_eq_true] at hchecks
  exact Option.isNone_iff_eq_none.mp hchecks.1.1.1.1.1

theorem ReachesAccept.notMem_orphans (h : ReachesAccept crypto node call) :
    crypto.blockHash call.received ∉ node.mapOrphanBlocks := by
  have hchecks := h.1
  simp only [checkReceived, Bool.and_eq_true, decide_eq_true_eq] at hchecks
  exact hchecks.1.1.1.1.2

theorem ReachesAccept.spec (h : ReachesAccept crypto node call) :
    SameOrphans node (acceptReceived crypto node call).1 ∧
      (∀ hash, ((acceptReceived crypto node call).1.chain.mapBlockIndex hash).isSome ↔
        KnownAfter crypto node call hash) ∧
      ((acceptReceived crypto node call).2 ↔
        (call.outs (crypto.blockHash call.received)).Inserts ∧
          (call.outs (crypto.blockHash call.received)).Succeeds crypto node.chain call.received) := by
  obtain ⟨hsame, hknown, hok⟩ := acceptBlock_spec crypto
    (call.outs (crypto.blockHash call.received)) node call.received h.2.1
  refine ⟨hsame, fun hash => ?_, ?_⟩
  · rw [KnownAfter, acceptReceived, hknown]
    simp only [h, true_and]
  · rw [acceptReceived, hok, and_iff_right h.mapBlockIndex_eq_none]

variable {node' : BlockNode} {w' : BlockWork} {b c : CBlock}

section

variable (h : ReachesAccept crypto node call)
  (haccept : acceptReceived crypto node call = (node', true))
include h haccept

/-- Where the loops are when they begin. -/
theorem ReachesAccept.cascade_start :
    LoopInv crypto call.outs (KnownAfter crypto node call) node 0
      ⟨node', [crypto.blockHash call.received]⟩ := by
  obtain ⟨hsame, hknown, hok⟩ := h.spec
  rw [haccept] at hsame hknown hok
  refine ⟨hsame.cascade hknown, QueueOk.start ?_⟩
  exact (hknown _).mpr (.inr ⟨rfl, h, (hok.mp rfl).1⟩)

variable (h₀ : node.Indexed crypto)
include h₀

theorem ReachesAccept.cascade {i : Nat}
    (hreach : WorkQueue.Reaches OrphanWork.vWorkQueue (visitPrevBlock crypto call.outs)
      ⟨node', [crypto.blockHash call.received]⟩ i w) :
    LoopInv crypto call.outs (KnownAfter crypto node call) node i w :=
  hreach.induct (LoopInv.round h₀) (h.cascade_start haccept)

theorem ReachesAccept.exists_run :
    ∃ w, WorkQueue.run OrphanWork.vWorkQueue (visitPrevBlock crypto call.outs)
      (node'.mapOrphanBlocks.keys.length + 2) 0 ⟨node', [crypto.blockHash call.received]⟩ = some w := by
  have hsame := h.spec.1
  rw [haccept] at hsame
  rw [hsame.mapOrphanBlocks]
  exact WorkQueue.exists_run (i := 0) (LoopInv.round h₀) (fun i w h => h.2.length_le)
    (h.cascade_start haccept) (Nat.lt_succ_self _) (Nat.zero_lt_succ _)

theorem ReachesAccept.cascade_run {fuel : Nat}
    (hrun : WorkQueue.run OrphanWork.vWorkQueue (visitPrevBlock crypto call.outs) fuel 0
      ⟨node', [crypto.blockHash call.received]⟩ = some w) :
    Cascade crypto call.outs (KnownAfter crypto node call) node w.vWorkQueue w.node := by
  obtain ⟨j, ⟨hcascade, -⟩, hend⟩ :=
    WorkQueue.run_induct (LoopInv.round h₀) (h.cascade_start haccept) hrun
  rwa [take_of_length_le hend] at hcascade

end

theorem exists_processBlock (h₀ : node.Indexed crypto) (call : BlockCall) :
    ∃ w ok, processBlock crypto node call = some (w, ok) ∧ Processed crypto node call w := by
  have hhash : crypto.blockHash call.pblock = crypto.blockHash call.received := rfl
  simp only [processBlock, hhash]
  by_cases hchecks : checkReceived crypto node call
  swap
  · rw [if_pos (by simpa using hchecks)]
    exact ⟨_, _, rfl, .refused fun h => hchecks h.1⟩
  rw [if_neg (by simpa using hchecks)]
  by_cases hparent : (node.chain.mapBlockIndex call.received.hashPrevBlock).isSome
  swap
  · -- a new orphan, or a duplicate stake
    have hno : ¬ ReachesAccept crypto node call := fun h => hparent h.2.1
    have hnone := Option.not_isSome_iff_eq_none.mp hparent
    have horphan : crypto.blockHash call.received ∉ node.mapOrphanBlocks := by
      simp only [checkReceived, Bool.and_eq_true, decide_eq_true_eq] at hchecks
      exact hchecks.1.1.1.1.2
    rw [if_pos (Option.isNone_iff_eq_none.mpr hnone)]
    simp only [addOrphanBlock]
    split
    · exact ⟨_, _, rfl, .refused hno⟩
    · exact ⟨_, _, rfl, .orphaned hno ⟨horphan, hnone, rfl, rfl, rfl, rfl⟩⟩
  rw [if_neg (by rw [Option.isNone_iff_eq_none]; exact Option.isSome_iff_ne_none.mp hparent)]
  by_cases hstake : (call.received.isProofOfStake →
      (call.outs (crypto.blockHash call.received)).checkProofOfStake)
  swap
  · rw [if_pos (by simpa using hstake)]
    exact ⟨_, _, rfl, .refused fun h => hstake h.2.2⟩
  rw [if_neg (by simpa using hstake)]
  have hreach : ReachesAccept crypto node call := ⟨hchecks, hparent, hstake⟩
  split
  · next node' haccept => exact ⟨_, _, rfl, .failed hreach haccept⟩
  · next node' haccept =>
    obtain ⟨w, hw⟩ := hreach.exists_run haccept h₀
    exact ⟨w, true, by rw [hw]; rfl, .accepted hreach haccept hw⟩

/-- The orphans of the blocks in the queue have been visited, or there is a new orphan. -/
theorem Processed.cases (h₀ : node.Indexed crypto) (h : Processed crypto node call w) :
    Cascade crypto call.outs (KnownAfter crypto node call) node w.vWorkQueue w.node ∨
      (w.vWorkQueue = [] ∧ ¬ ReachesAccept crypto node call ∧
        Orphaned crypto node call.received w.node) := by
  cases h with
  | refused h =>
    refine .inl ((SameOrphans.refl node).cascade fun hash => ⟨.inl, fun hknown => ?_⟩)
    exact hknown.resolve_right fun hknown' => h hknown'.2.1
  | orphaned h h' => exact .inr ⟨rfl, h, h'⟩
  | failed h haccept =>
    obtain ⟨hsame, hknown, -⟩ := h.spec
    rw [haccept] at hsame hknown
    exact .inl (hsame.cascade hknown)
  | accepted h haccept hrun => exact .inl (h.cascade_run haccept h₀ hrun)

theorem Processed.exists_run (h : Processed crypto node call w)
    (hreach : ReachesAccept crypto node call)
    (haccept : acceptReceived crypto node call = (node', true)) :
    ∃ fuel, WorkQueue.run OrphanWork.vWorkQueue (visitPrevBlock crypto call.outs) fuel 0
      ⟨node', [crypto.blockHash call.received]⟩ = some w := by
  cases h with
  | refused h => exact absurd hreach h
  | orphaned h _ => exact absurd hreach h
  | failed _ haccept' => cases haccept.symm.trans haccept'
  | accepted _ haccept' hrun =>
    cases haccept.symm.trans haccept'
    exact ⟨_, hrun⟩

theorem Processed.indexed (h₀ : node.Indexed crypto) (h : Processed crypto node call w) :
    w.node.Indexed crypto := by
  rcases h.cases h₀ with hcascade | ⟨-, -, horphaned⟩
  · exact hcascade.indexed h₀
  · exact horphaned.indexed h₀

/-! ## The visits of a call -/

theorem vWorkQueue_foldl_visitOrphanBlock (outs : Uint256 → BlockOutcomes) :
    ∀ (blocks : List CBlock) (w : BlockWork),
      w.vWorkQueue <+: (blocks.foldl (visitOrphanBlock crypto outs) w).vWorkQueue
  | [], _ => prefix_rfl
  | b :: blocks, w => by
    have haccept : w.vWorkQueue <+: (acceptOrphan crypto (outs (crypto.blockHash b)) w b).vWorkQueue := by
      rw [acceptOrphan_eq]
      split
      · exact prefix_append _ _
      · exact prefix_rfl
    have hfirst : w.vWorkQueue <+: (visitOrphanBlock crypto outs w b).vWorkQueue := by
      simp only [visitOrphanBlock_eq]
      split
      · split
        · exact haccept
        · exact prefix_rfl
      · exact haccept
    exact hfirst.trans (vWorkQueue_foldl_visitOrphanBlock outs blocks _)

theorem vWorkQueue_visitPrevBlock (outs : Uint256 → BlockOutcomes) (w : BlockWork) (p : Uint256) :
    w.vWorkQueue <+: (visitPrevBlock crypto outs w p).vWorkQueue :=
  vWorkQueue_foldl_visitOrphanBlock outs (w.node.waitingFor p) w

variable (crypto) in
/-- In a call that finds `node`, the inner loop comes to the orphan `b` in the state `w`. -/
inductive Visits (node : BlockNode) (call : BlockCall) : BlockWork → CBlock → Prop
  | intro {node' : BlockNode} {i : Nat} {w : BlockWork} {p : Uint256} {b : CBlock}
      {before after : List CBlock} (h : ReachesAccept crypto node call)
      (haccept : acceptReceived crypto node call = (node', true))
      (hreach : WorkQueue.Reaches OrphanWork.vWorkQueue (visitPrevBlock crypto call.outs)
        ⟨node', [crypto.blockHash call.received]⟩ i w)
      (hp : w.vWorkQueue[i]? = some p) (hb : w.node.waitingFor p = before ++ b :: after) :
      Visits node call (before.foldl (visitOrphanBlock crypto call.outs) w) b

section

variable (h₀ : node.Indexed crypto)
include h₀

/-- The visited orphans are those whose parent is in the queue in the end. -/
theorem exists_visits_iff (h : Processed crypto node call w) :
    (∃ w', Visits crypto node call w' b) ↔
      node.mapOrphanBlocks.lookup (crypto.blockHash b) = some b ∧ b.hashPrevBlock ∈ w.vWorkQueue := by
  constructor
  · rintro ⟨_, ⟨hreach, haccept, hround, hp, hb⟩⟩
    obtain ⟨hcascade, -⟩ := hreach.cascade haccept h₀ hround
    obtain ⟨rfl, hlookup, -⟩ := (hcascade.mem_waitingFor h₀).mp
      (hb ▸ mem_append_right _ mem_cons_self)
    obtain ⟨fuel, hrun⟩ := h.exists_run hreach haccept
    exact ⟨hlookup, (WorkQueue.mem_queue_iff (vWorkQueue_visitPrevBlock call.outs) hrun).mpr
      ⟨_, _, hround, hp⟩⟩
  · rintro ⟨hlookup, hmem⟩
    cases h with
    | refused h => cases hmem
    | orphaned h _ => cases hmem
    | failed _ haccept => cases hmem
    | accepted hreach haccept hrun =>
      obtain ⟨i, wᵢ, hround, hp⟩ :=
        (WorkQueue.mem_queue_iff (vWorkQueue_visitPrevBlock call.outs) hrun).mp hmem
      obtain ⟨hcascade, hqueue⟩ := hreach.cascade haccept h₀ hround
      -- the parent is in the queue once, so its orphans have not been visited before
      have hfirst := WorkQueue.notMem_take hqueue.nodup hp
      obtain ⟨before, after, hb⟩ := append_of_mem
        ((hcascade.mem_waitingFor h₀).mpr ⟨rfl, hlookup, hfirst⟩)
      exact ⟨_, ⟨hreach, haccept, hround, hp, hb⟩⟩

theorem Visits.known (h : Visits crypto node call w b) :
    (w.node.chain.mapBlockIndex b.hashPrevBlock).isSome ∧
      ∀ hash ∈ w.vWorkQueue, (w.node.chain.mapBlockIndex hash).isSome := by
  obtain ⟨hreach, haccept, hround, hp, hb⟩ := h
  obtain ⟨hcascade, hqueue⟩ := hreach.cascade haccept h₀ hround
  have hpknown := hqueue.known _ (mem_of_getElem? hp)
  have hvisited := hcascade.visited h₀ hpknown (hb ▸ subset_append_left _ _)
  refine ⟨(hvisited.known _).mpr (.inl ?_), hvisited.queue_known hqueue.known⟩
  rw [← ((hcascade.mem_waitingFor h₀).mp (hb ▸ mem_append_right _ mem_cons_self)).1]
  exact hpknown

theorem nodup_waitingFor (p : Uint256) : (node.waitingFor p).Nodup := by
  refine (h₀.nodup.filter _).map_on ?_
  intro entry hentry entry' hentry' heq
  rw [mem_filter, beq_iff_eq] at hentry hentry'
  exact Prod.ext (hentry.2.trans hentry'.2.symm) heq

/-- A block visited now was not inserted by an earlier visit: orphans have different hashes. -/
theorem Visits.new (h : Visits crypto node call w b)
    (hnone : node.chain.mapBlockIndex (crypto.blockHash b) = none) :
    w.node.chain.mapBlockIndex (crypto.blockHash b) = none := by
  obtain ⟨hreach, haccept, hround, hp, hb⟩ := h
  obtain ⟨hcascade, hqueue⟩ := hreach.cascade haccept h₀ hround
  have hpknown := hqueue.known _ (mem_of_getElem? hp)
  have hvisited := hcascade.visited h₀ hpknown (hb ▸ subset_append_left _ _)
  obtain ⟨rfl, hlookup, hfirst⟩ := (hcascade.mem_waitingFor h₀).mp
    (hb ▸ mem_append_right _ mem_cons_self)
  -- there is no other orphan with this hash
  have hunique : ∀ {hash c}, node.mapOrphanBlocks.lookup hash = some c →
      crypto.blockHash c = crypto.blockHash b → c = b := by
    intro hash c hc heq
    rw [← h₀.keyed hash c hc, heq, hlookup] at hc
    exact (Option.some.inj hc).symm
  by_contra hsome
  rw [← ne_eq, ← Option.isSome_iff_ne_none, hvisited.known, hcascade.known] at hsome
  rcases hsome with ((hold | ⟨heq, -⟩) | ⟨hash, c, hc, hdone, heq, -⟩) | ⟨c, hc, heq, -⟩
  · rw [hnone] at hold
    cases hold
  · exact hreach.notMem_orphans (heq ▸ mem_of_lookup hlookup)
  · obtain rfl := hunique hc heq
    exact hfirst hdone
  · have hmem := (hcascade.mem_waitingFor h₀).mp (hb ▸ mem_append_left _ hc)
    obtain rfl := hunique hmem.2.1 heq
    have hnodup := nodup_waitingFor (hcascade.indexed h₀) c.hashPrevBlock
    rw [hb] at hnodup
    exact disjoint_of_nodup_append hnodup hc mem_cons_self

theorem Visits.mem_waitingFor (h : Processed crypto node call w) (hv : Visits crypto node call w' c)
    (hp : p ∉ w.vWorkQueue) : b ∈ w'.node.waitingFor p ↔ b ∈ node.waitingFor p := by
  cases hv with
  | @intro node' i w₀ _ _ before after hreach haccept hround hi hb =>
    obtain ⟨hcascade, hqueue⟩ := hreach.cascade haccept h₀ hround
    have hpknown := hqueue.known _ (mem_of_getElem? hi)
    have hvisited := hcascade.visited h₀ hpknown (hb ▸ subset_append_left before _)
    obtain ⟨fuel, hrun⟩ := h.exists_run hreach haccept
    obtain ⟨fuel', hrest⟩ := hround.run_eq hrun
    have hpre := WorkQueue.isPrefix_run (vWorkQueue_visitPrevBlock call.outs) hrest
    have hdone : p ∉ w₀.vWorkQueue.take i := fun hmem => hp (hpre.mem (mem_of_mem_take hmem))
    rw [mem_waitingFor, mem_waitingFor, hvisited.byPrev, hcascade.byPrev,
      mem_filter, decide_eq_true_eq]
    exact and_iff_left hdone

theorem Refused.run (hreach : ReachesAccept crypto node call)
    (haccept : acceptReceived crypto node call = (node', true)) {fuel i : Nat}
    (hround : WorkQueue.Reaches OrphanWork.vWorkQueue (visitPrevBlock crypto call.outs)
      ⟨node', [crypto.blockHash call.received]⟩ i w)
    (hrun : WorkQueue.run OrphanWork.vWorkQueue (visitPrevBlock crypto call.outs) fuel i w = some w')
    (h : Refused hash w) : Refused hash w' := by
  obtain ⟨-, ⟨-, hrefused⟩, -⟩ := WorkQueue.run_induct
    (I := fun j v => LoopInv crypto call.outs (KnownAfter crypto node call) node j v ∧ Refused hash v)
    (fun j v p hv hp => ⟨LoopInv.round h₀ j v p hv.1 hp, (hv.1.1.visited h₀
      (hv.1.2.known p (mem_of_getElem? hp)) (List.Subset.refl _)).refused hv.2⟩)
    ⟨hreach.cascade haccept h₀ hround, h⟩ hrun
  exact hrefused

/-- A visited orphan that `AcceptBlock` inserts is in the queue in the end if and only if nothing
fails then. -/
theorem Visits.mem_queue_iff (h : Processed crypto node call w') (hv : Visits crypto node call w b)
    (hcheck : b.isProofOfStake → (call.outs (crypto.blockHash b)).checkProofOfStake)
    (hinserts : (call.outs (crypto.blockHash b)).Inserts)
    (hnew : w.node.chain.mapBlockIndex (crypto.blockHash b) = none) :
    crypto.blockHash b ∈ w'.vWorkQueue ↔
      (call.outs (crypto.blockHash b)).Succeeds crypto w.node.chain b := by
  obtain ⟨hparent, hknown⟩ := hv.known h₀
  obtain ⟨-, -, hok⟩ := acceptBlock_spec crypto (call.outs (crypto.blockHash b)) w.node b hparent
  rw [and_iff_right hnew, and_iff_right hinserts] at hok
  have hvisit : Visited crypto call.outs [b] w (visitOrphanBlock crypto call.outs w b) :=
    visitOrphanBlock_visited w b hparent
  have hqueue : (visitOrphanBlock crypto call.outs w b).vWorkQueue =
      if (acceptBlock crypto (call.outs (crypto.blockHash b)) w.node b).2 then
        w.vWorkQueue ++ [crypto.blockHash b]
      else w.vWorkQueue :=
    vWorkQueue_visitOrphanBlock hcheck
  cases hv with
  | @intro node' i w₀ p _ before after hreach haccept hround hp hb =>
    obtain ⟨fuel, hrun⟩ := h.exists_run hreach haccept
    obtain ⟨fuel', hrest⟩ := (hround.round hp).run_eq hrun
    obtain ⟨hcascade, -⟩ := hreach.cascade haccept h₀ hround
    -- the round: the visits before this one, this one, and those after it
    generalize hw : before.foldl (visitOrphanBlock crypto call.outs) w₀ = w at *
    generalize hu : visitOrphanBlock crypto call.outs w b = u at *
    have hfold : (w₀.node.waitingFor p).foldl (visitOrphanBlock crypto call.outs) w₀ =
        after.foldl (visitOrphanBlock crypto call.outs) u := by
      rw [hb, foldl_append, foldl_cons, hw, hu]
    constructor
    · intro hmem
      by_contra hfail
      have hrefused : Refused (crypto.blockHash b) u := by
        refine ⟨(hvisit.known _).mpr
          (.inr ⟨b, mem_singleton_self _, rfl, hcheck, hinserts⟩), ?_⟩
        rw [hqueue, if_neg (mt hok.mp hfail)]
        intro hmem
        have hsome := hknown _ hmem
        rw [hnew] at hsome
        cases hsome
      have hafter : Visited crypto call.outs after u
          (after.foldl (visitOrphanBlock crypto call.outs) u) := by
        refine foldl_visitOrphanBlock_visited crypto call.outs after u fun c hc => ?_
        have hcp := (hcascade.mem_waitingFor h₀).mp
          (hb ▸ mem_append_right before (mem_cons_of_mem b hc))
        have hbp := (hcascade.mem_waitingFor h₀).mp
          (hb ▸ mem_append_right before mem_cons_self)
        rw [← hcp.1, hbp.1]
        exact (hvisit.known _).mpr (.inl hparent)
      have hend : Refused (crypto.blockHash b) (visitPrevBlock crypto call.outs w₀ p) := by
        have hlast := hafter.refused hrefused
        rw [← hfold] at hlast
        exact hlast
      exact (Refused.run h₀ hreach haccept (hround.round hp) hrest hend).2 hmem
    · intro hsucceeds
      have hmem : crypto.blockHash b ∈ u.vWorkQueue := by
        rw [hqueue, if_pos (hok.mpr hsucceeds)]
        exact mem_append_right _ (mem_singleton_self _)
      have hlast : crypto.blockHash b ∈
          (after.foldl (visitOrphanBlock crypto call.outs) u).vWorkQueue :=
        (vWorkQueue_foldl_visitOrphanBlock call.outs after u).mem hmem
      rw [← hfold] at hlast
      exact (WorkQueue.isPrefix_run (vWorkQueue_visitPrevBlock call.outs) hrest).mem hlast

/-! ## The calls of AcceptBlock -/

variable (crypto) in
/-- In a call that finds `node`, `AcceptBlock` is called for the received block, or for a visited
orphan that passes `CheckProofOfStake`. -/
inductive AcceptCalled (node : BlockNode) (call : BlockCall) : BlockNode → CBlock → Prop
  | received (h : ReachesAccept crypto node call) : AcceptCalled node call node call.received
  | orphan {w : BlockWork} {b : CBlock} (h : Visits crypto node call w b)
      (hcheck : b.isProofOfStake = true → (call.outs (crypto.blockHash b)).checkProofOfStake = true) :
      AcceptCalled node call w.node b

variable (h : Processed crypto node call w) (hc : AcceptCalled crypto node call node' c)
include h hc

theorem AcceptCalled.mem_queue_iff (hinserts : (call.outs (crypto.blockHash c)).Inserts)
    (hnew : node'.chain.mapBlockIndex (crypto.blockHash c) = none) :
    crypto.blockHash c ∈ w.vWorkQueue ↔
      (call.outs (crypto.blockHash c)).Succeeds crypto node'.chain c := by
  cases hc with
  | orphan hv hcheck => exact hv.mem_queue_iff h₀ h hcheck hinserts hnew
  | received hreach =>
    obtain ⟨-, -, hok⟩ := hreach.spec
    rw [and_iff_right hinserts] at hok
    rw [← hok]
    cases h with
    | refused h => exact absurd hreach h
    | orphaned h _ => exact absurd hreach h
    | failed _ haccept => simp [haccept]
    | accepted _ haccept hrun =>
      have hpre := WorkQueue.isPrefix_run (vWorkQueue_visitPrevBlock call.outs) hrun
      exact iff_of_true (hpre.mem (mem_singleton_self _)) (by rw [haccept])

/-- An inserted block is in the block index in the end. -/
theorem AcceptCalled.known
    (hcascade : Cascade crypto call.outs (KnownAfter crypto node call) node w.vWorkQueue w.node)
    (hinserts : (call.outs (crypto.blockHash c)).Inserts) :
    (w.node.chain.mapBlockIndex (crypto.blockHash c)).isSome := by
  rw [hcascade.known]
  cases hc with
  | received hreach => exact .inl (.inr ⟨rfl, hreach, hinserts⟩)
  | orphan hv hcheck =>
    obtain ⟨hlookup, hparent⟩ := (exists_visits_iff h₀ h).mp ⟨_, hv⟩
    exact .inr ⟨_, c, hlookup, hparent, rfl, hcheck, hinserts⟩

theorem AcceptCalled.mem_waitingFor (hp : p ∉ w.vWorkQueue) :
    b ∈ node'.waitingFor p ↔ b ∈ node.waitingFor p := by
  cases hc with
  | received _ => exact Iff.rfl
  | orphan hv _ => exact hv.mem_waitingFor h₀ h hp

end

end

end

end NovaCoin
