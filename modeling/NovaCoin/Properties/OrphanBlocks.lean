import NovaCoin.Infra.Runs
import NovaCoin.Spec.OrphanBlocks

/-!
# Orphan blocks

`mapOrphanBlocksByPrev` is always the index of `mapOrphanBlocks` by `hashPrevBlock`. But a block can
be in `mapBlockIndex` although `AcceptBlock` returned `false`, and the blocks that wait for it then
stay orphans. And `setStakeSeenOrphan` keeps kernels too long or not long enough.
-/

namespace NovaCoin

open AssocMap (lookup_insert_ite mem_of_lookup)

section

variable {crypto : Crypto}

/-! ## Runs -/

theorem indexed_start (chain : ChainState) (setStakeSeen : Finset Stake) :
    (BlockNode.start chain setStakeSeen).Indexed crypto :=
  ⟨fun _ _ h => (by cases h), List.nodup_nil, fun _ _ => ⟨fun h => (by cases h), fun h => by cases h.2⟩⟩

theorem indexed_processBlock (node : BlockNode) (call : BlockCall) (node' : BlockNode)
    (h : node.Indexed crypto)
    (hstep : (processBlock crypto node call).map (·.1.node) = some node') :
    node'.Indexed crypto := by
  obtain ⟨w, ok, hw, hprocessed⟩ := exists_processBlock h call
  rw [hw] at hstep
  cases hstep
  exact hprocessed.indexed h

theorem exists_processBlocks (chain : ChainState) (setStakeSeen : Finset Stake)
    (calls : List BlockCall) :
    ∃ node, processBlocks crypto (.start chain setStakeSeen) calls = some node := by
  refine Runs.exists_run indexed_processBlock (indexed_start chain setStakeSeen) ?_ calls
  intro node call h
  obtain ⟨w, ok, hw, -⟩ := exists_processBlock h call
  exact ⟨w.node, by rw [hw]; rfl⟩

/-! ## Orphans and the block index -/

/-- No orphan has its parent in `mapBlockIndex`. -/
def BlockNode.Connected (node : BlockNode) : Prop :=
  ∀ hash b, node.mapOrphanBlocks.lookup hash = some b →
    node.chain.mapBlockIndex b.hashPrevBlock = none

variable (crypto) in
/-- Where `AcceptBlock` is called for a new block for which orphans wait, and inserts it into
`mapBlockIndex`, nothing fails afterwards. -/
def AcceptsInserted (node : BlockNode) (call : BlockCall) : Prop :=
  ∀ node' c, AcceptCalled crypto node call node' c → (call.outs (crypto.blockHash c)).Inserts →
    node'.chain.mapBlockIndex (crypto.blockHash c) = none →
    (∃ b, b ∈ node'.waitingFor (crypto.blockHash c)) →
    (call.outs (crypto.blockHash c)).Succeeds crypto node'.chain c

variable {node : BlockNode} {call : BlockCall} {w : BlockWork}

/-- The orphans of a call that has visited some, when no orphan had its parent in the index. -/
theorem Cascade.connected_iff (h : node.Indexed crypto) (hconnected : node.Connected)
    (hprocessed : Processed crypto node call w)
    (hcascade : Cascade crypto call.outs (KnownAfter crypto node call) node w.vWorkQueue w.node) :
    w.node.Connected ↔ AcceptsInserted crypto node call := by
  have hwaits : ∀ {p b}, b ∈ node.waitingFor p ↔
      b.hashPrevBlock = p ∧ node.mapOrphanBlocks.lookup (crypto.blockHash b) = some b := by
    intro p b
    rw [NovaCoin.mem_waitingFor, h.mem_byPrev, eq_comm]
  constructor
  · rintro hnode' node' c hcalled hinserts hnew ⟨b, hb⟩
    rw [← hcalled.mem_queue_iff h hprocessed hinserts hnew]
    by_contra hrefused
    obtain ⟨hparent, hlookup⟩ := hwaits.mp ((hcalled.mem_waitingFor h hprocessed hrefused).mp hb)
    have hknown := hcalled.known h hprocessed hcascade hinserts
    rw [← hparent, hnode' _ b ((hcascade.lookup _ b).mpr ⟨hlookup, by rwa [hparent]⟩)] at hknown
    cases hknown
  · intro hall hash b hb
    obtain ⟨hb, hqueue⟩ := (hcascade.lookup hash b).mp hb
    have hnone := hconnected hash b hb
    obtain rfl := h.keyed hash b hb
    -- no block for which `b` waits is inserted in the call
    have hno : ∀ node' c, AcceptCalled crypto node call node' c →
        crypto.blockHash c = b.hashPrevBlock → (call.outs (crypto.blockHash c)).Inserts →
        node'.chain.mapBlockIndex (crypto.blockHash c) ≠ none := by
      intro node' c hcalled heq hinserts hnew
      rw [← heq] at hqueue
      refine hqueue ((hcalled.mem_queue_iff h hprocessed hinserts hnew).mpr ?_)
      refine hall node' c hcalled hinserts hnew ⟨b, ?_⟩
      exact (hcalled.mem_waitingFor h hprocessed hqueue).mpr (hwaits.mpr ⟨heq.symm, hb⟩)
    by_contra hne
    have hknown := (hcascade.known b.hashPrevBlock).mp (Option.isSome_iff_ne_none.mpr hne)
    rcases hknown with (hold | ⟨heq, hreach, hinserts⟩) | ⟨hash, c, hc, hmem, heq, hcheck, hinserts⟩
    · rw [hnone] at hold
      cases hold
    · exact hno node call.received (.received hreach) heq hinserts hreach.mapBlockIndex_eq_none
    · obtain rfl := h.keyed hash c hc
      obtain ⟨w', hv⟩ := (exists_visits_iff h hprocessed).mpr ⟨hc, hmem⟩
      exact hno w'.node c (.orphan hv hcheck) heq hinserts (hv.new h (heq ▸ hnone))

variable {node' : BlockNode} {b : CBlock}

theorem Orphaned.connected (h : node.Connected) (h' : Orphaned crypto node b node') :
    node'.Connected := by
  intro hash c hc
  rw [h'.chain]
  rw [h'.mapOrphanBlocks, lookup_insert_ite] at hc
  split at hc
  · cases hc
    exact h'.parent
  · exact h hash c hc

theorem connected_step_iff (node : BlockNode) (call : BlockCall) (node' : BlockNode)
    (h : node.Indexed crypto) (hconnected : node.Connected)
    (hstep : (processBlock crypto node call).map (·.1.node) = some node') :
    node'.Connected ↔ AcceptsInserted crypto node call := by
  obtain ⟨w, ok, hw, hprocessed⟩ := exists_processBlock h call
  rw [hw] at hstep
  cases hstep
  rcases hprocessed.cases h with hcascade | ⟨-, hno, horphaned⟩
  · exact hcascade.connected_iff h hconnected hprocessed
  · -- a new orphan: `AcceptBlock` is not called
    refine iff_of_true (horphaned.connected hconnected) fun node' c hcalled => ?_
    cases hcalled with
    | received hreach => exact absurd hreach hno
    | orphan hv _ =>
      obtain ⟨hreach, -⟩ := hv
      exact absurd hreach hno

/-- Every sequence of calls of `ProcessBlock` runs through, with `mapOrphanBlocksByPrev` as the
index of `mapOrphanBlocks`. After every call no orphan has its parent in `mapBlockIndex`, if and
only if whenever `AcceptBlock` inserts a block for which orphans wait, nothing fails afterwards:
neither the commit of the record nor `SetBestChain`. -/
theorem processBlocks_connected (crypto : Crypto) (chain : ChainState)
    (setStakeSeen : Finset Stake) (calls : List BlockCall) :
    (∃ node, processBlocks crypto (.start chain setStakeSeen) calls = some node) ∧
    (∀ node, processBlocks crypto (.start chain setStakeSeen) calls = some node →
      node.Indexed crypto) ∧
    ((∀ pre, pre <+: calls → ∀ node,
        processBlocks crypto (.start chain setStakeSeen) pre = some node → node.Connected) ↔
      ∀ pre call, pre ++ [call] <+: calls → ∀ node,
        processBlocks crypto (.start chain setStakeSeen) pre = some node →
          AcceptsInserted crypto node call) := by
  have hstart : (BlockNode.start chain setStakeSeen).Indexed crypto := indexed_start chain setStakeSeen
  obtain ⟨node, hrun⟩ : ∃ node, processBlocks crypto (.start chain setStakeSeen) calls = some node :=
    exists_processBlocks chain setStakeSeen calls
  exact ⟨⟨node, hrun⟩, fun node h => Runs.run_invariant indexed_processBlock hstart calls h,
    Runs.forall_prefix_iff indexed_processBlock hstart connected_step_iff (fun _ _ h => by cases h) hrun⟩

/-- Every check succeeds but connecting some blocks and the proof of stake of some. -/
def checksWith (connectBlock checkProofOfStake : Uint256 → Bool) (hash : Uint256) : BlockOutcomes :=
  { checkBanned := true, fWanted := false, checkBlock := true, checkTarget := true,
    checkProofOfStake := checkProofOfStake hash, acceptOk := true, nFile := 1, nBlockPos := 100,
    index := outcomesWith connectBlock }

def genesisNode : BlockNode := .start (.init headerCrypto (headerBlock 0) 1 8) ∅

/-- First B comes, without its parent; then its parent A, which cannot be connected. -/
def failedParent : List BlockCall :=
  [⟨headerBlock hashA, checksWith (fun _ => true) fun _ => true, []⟩,
    ⟨headerBlock hashG, checksWith (fun _ => false) fun _ => true, []⟩]

/-- A is in the block index, and B an orphan that nothing will connect: it is refused as known. -/
theorem failedParent_not_connected :
    ∃ node, processBlocks headerCrypto genesisNode failedParent = some node ∧
      (node.chain.mapBlockIndex hashA).isSome ∧
      node.mapOrphanBlocks.lookup hashB = some (headerBlock hashA) ∧
      (processBlock headerCrypto node
        ⟨headerBlock hashA, checksWith (fun _ => true) fun _ => true, []⟩).map (·.2) = some false ∧
      ¬ node.Connected := by
  refine ⟨(processBlocks headerCrypto genesisNode failedParent).get (by decide +kernel),
    (Option.some_get _).symm, by decide +kernel, by decide +kernel, by decide +kernel,
    fun hconnected => ?_⟩
  have hnone := hconnected hashB (headerBlock hashA) (by decide +kernel)
  exact absurd hnone (by decide +kernel)

/-! ## Kernels -/

/-- The kernels in `setStakeSeenOrphan` are those of the orphans. -/
def BlockNode.StakesExact (node : BlockNode) : Prop :=
  ∀ stake, stake ∈ node.setStakeSeenOrphan ↔ ∃ hash b,
    node.mapOrphanBlocks.lookup hash = some b ∧ b.isProofOfStake = true ∧ b.getProofOfStake = stake

variable (crypto) in
/-- Of the orphans visited in the call, one that passes `CheckProofOfStake` shares its kernel only
with visited ones, and one that fails shares it with one that passes, or is not visited. -/
def KernelsKept (node : BlockNode) (call : BlockCall) : Prop :=
  ∀ w b, Visits crypto node call w b → b.isProofOfStake = true →
    if (call.outs (crypto.blockHash b)).checkProofOfStake then
      ∀ hash c, node.mapOrphanBlocks.lookup hash = some c → c.isProofOfStake = true →
        c.getProofOfStake = b.getProofOfStake → ∃ w', Visits crypto node call w' c
    else
      ∃ hash c, node.mapOrphanBlocks.lookup hash = some c ∧ c.isProofOfStake = true ∧
        c.getProofOfStake = b.getProofOfStake ∧
        ∀ w', Visits crypto node call w' c →
          (call.outs (crypto.blockHash c)).checkProofOfStake = true

theorem Orphaned.stakesExact (h : node.StakesExact) (h' : Orphaned crypto node b node') :
    node'.StakesExact := by
  have hnone : node.mapOrphanBlocks.lookup (crypto.blockHash b) = none :=
    AList.lookup_eq_none.mpr h'.fresh
  intro stake
  rw [h'.stakes, h'.mapOrphanBlocks]
  constructor
  · intro hmem
    have hcases : (b.isProofOfStake ∧ b.getProofOfStake = stake) ∨
        stake ∈ node.setStakeSeenOrphan := by
      split at hmem
      · next hpos =>
        rcases Finset.mem_insert.mp hmem with heq | hmem
        · exact .inl ⟨hpos, heq.symm⟩
        · exact .inr hmem
      · exact .inr hmem
    rcases hcases with hb | hold
    · exact ⟨_, b, AList.lookup_insert _, hb⟩
    · obtain ⟨hash, c, hc, hstake⟩ := (h stake).mp hold
      refine ⟨hash, c, ?_, hstake⟩
      rw [lookup_insert_ite, if_neg, hc]
      rintro rfl
      rw [hnone] at hc
      cases hc
  · rintro ⟨hash, c, hc, hpos, hstake⟩
    rw [lookup_insert_ite] at hc
    split at hc
    · cases hc
      rw [if_pos hpos, ← hstake]
      exact Finset.mem_insert_self _ _
    · have hold := (h stake).mpr ⟨hash, c, hc, hpos, hstake⟩
      split
      · exact Finset.mem_insert_of_mem hold
      · exact hold

/-- The kernels after a call that has visited orphans, when they were those of the orphans. -/
theorem Cascade.stakesExact_iff (h : node.Indexed crypto) (hexact : node.StakesExact)
    (hprocessed : Processed crypto node call w)
    (hcascade : Cascade crypto call.outs (KnownAfter crypto node call) node w.vWorkQueue w.node) :
    w.node.StakesExact ↔ KernelsKept crypto node call := by
  have hvisits : ∀ {hash b}, node.mapOrphanBlocks.lookup hash = some b →
      ((∃ w', Visits crypto node call w' b) ↔ b.hashPrevBlock ∈ w.vWorkQueue) := by
    intro hash b hb
    obtain rfl := h.keyed hash b hb
    rw [exists_visits_iff h hprocessed, and_iff_right hb]
  constructor
  · intro hexact' w' b hv hpos
    obtain ⟨hb, hparent⟩ := (exists_visits_iff h hprocessed).mp ⟨w', hv⟩
    split
    · next hcheck =>
      intro hash c hc hposc hstake
      by_contra hwaits
      rw [hvisits hc] at hwaits
      have hmem := (hexact' c.getProofOfStake).mpr
        ⟨hash, c, (hcascade.lookup hash c).mpr ⟨hc, hwaits⟩, hposc, rfl⟩
      exact ((hcascade.stakes _).mp hmem).2 ⟨_, b, hb, hparent, hpos, hcheck, hstake.symm⟩
    · by_contra hnone
      have hmem : b.getProofOfStake ∈ w.node.setStakeSeenOrphan := by
        refine (hcascade.stakes _).mpr ⟨(hexact _).mpr ⟨_, b, hb, hpos, rfl⟩, ?_⟩
        rintro ⟨hash, c, hc, -, hposc, hcheckc, hstake⟩
        exact hnone ⟨hash, c, hc, hposc, hstake, fun _ _ => hcheckc⟩
      obtain ⟨hash, c, hc, hposc, hstake⟩ := (hexact' _).mp hmem
      obtain ⟨hc, hwaits⟩ := (hcascade.lookup hash c).mp hc
      exact hnone ⟨hash, c, hc, hposc, hstake, fun w'' hv' => absurd ((hvisits hc).mp ⟨w'', hv'⟩) hwaits⟩
  · intro hkept stake
    rw [hcascade.stakes]
    constructor
    · rintro ⟨hmem, hforgotten⟩
      obtain ⟨hash, b, hb, hpos, rfl⟩ := (hexact stake).mp hmem
      by_cases hparent : b.hashPrevBlock ∈ w.vWorkQueue
      · obtain ⟨w', hv⟩ := (hvisits hb).mpr hparent
        have hb' := hkept w' b hv hpos
        split at hb'
        · next hcheck => exact absurd ⟨hash, b, hb, hparent, hpos, hcheck, rfl⟩ hforgotten
        · obtain ⟨hash', c, hc, hposc, hstake, hcheckc⟩ := hb'
          by_cases hparentc : c.hashPrevBlock ∈ w.vWorkQueue
          · obtain ⟨w'', hv'⟩ := (hvisits hc).mpr hparentc
            exact absurd ⟨hash', c, hc, hparentc, hposc, hcheckc w'' hv', hstake⟩ hforgotten
          · exact ⟨hash', c, (hcascade.lookup hash' c).mpr ⟨hc, hparentc⟩, hposc, hstake⟩
      · exact ⟨hash, b, (hcascade.lookup hash b).mpr ⟨hb, hparent⟩, hpos, rfl⟩
    · rintro ⟨hash, c, hc, hpos, rfl⟩
      obtain ⟨hc, hwaits⟩ := (hcascade.lookup hash c).mp hc
      refine ⟨(hexact _).mpr ⟨hash, c, hc, hpos, rfl⟩, ?_⟩
      rintro ⟨hash', b, hb, hparent, hposb, hcheck, hstake⟩
      obtain ⟨w', hv⟩ := (hvisits hb).mpr hparent
      have hb' := hkept w' b hv hposb
      rw [if_pos hcheck] at hb'
      exact hwaits ((hvisits hc).mp (hb' hash c hc hpos hstake.symm))

theorem stakes_step_iff (node : BlockNode) (call : BlockCall) (node' : BlockNode)
    (h : node.Indexed crypto) (hexact : node.StakesExact)
    (hstep : (processBlock crypto node call).map (·.1.node) = some node') :
    node'.StakesExact ↔ KernelsKept crypto node call := by
  obtain ⟨w, ok, hw, hprocessed⟩ := exists_processBlock h call
  rw [hw] at hstep
  cases hstep
  rcases hprocessed.cases h with hcascade | ⟨-, hno, horphaned⟩
  · exact hcascade.stakesExact_iff h hexact hprocessed
  · -- a new orphan: none is visited
    refine iff_of_true (horphaned.stakesExact hexact) fun w' b hv => ?_
    obtain ⟨hreach, -⟩ := hv
    exact absurd hreach hno

/-- Every sequence of calls runs through. After every call the kernels in `setStakeSeenOrphan` are
those of the orphans, if and only if the kernels are kept in every call. -/
theorem processBlocks_stakes (crypto : Crypto) (chain : ChainState)
    (setStakeSeen : Finset Stake) (calls : List BlockCall) :
    (∃ node, processBlocks crypto (.start chain setStakeSeen) calls = some node) ∧
    ((∀ pre, pre <+: calls → ∀ node,
        processBlocks crypto (.start chain setStakeSeen) pre = some node → node.StakesExact) ↔
      ∀ pre call, pre ++ [call] <+: calls → ∀ node,
        processBlocks crypto (.start chain setStakeSeen) pre = some node →
          KernelsKept crypto node call) := by
  have hstart : (BlockNode.start chain setStakeSeen).Indexed crypto := indexed_start chain setStakeSeen
  have hempty : (BlockNode.start chain setStakeSeen).StakesExact := fun stake =>
    ⟨fun h => absurd h (Finset.notMem_empty stake), fun ⟨_, _, h, _⟩ => by cases h⟩
  obtain ⟨node, hrun⟩ : ∃ node, processBlocks crypto (.start chain setStakeSeen) calls = some node :=
    exists_processBlocks chain setStakeSeen calls
  exact ⟨⟨node, hrun⟩,
    Runs.forall_prefix_iff indexed_processBlock hstart stakes_step_iff hempty hrun⟩

def stakeBlock (hashPrevBlock : Uint256) : CBlock :=
  { headerBlock hashPrevBlock with
    vtx := [⟨1, 0, [⟨COutPoint.null, [], 0xffffffff⟩], [⟨0, []⟩], 0⟩,
      ⟨1, 0, [⟨⟨7, 0⟩, [], 0xffffffff⟩], [⟨0, []⟩, ⟨5, []⟩], 0⟩] }

/-- First a block with a kernel comes, without its parent; then A, and the block fails
`CheckProofOfStake`. -/
def failedStake : List BlockCall :=
  [⟨stakeBlock hashA, checksWith (fun _ => true) fun _ => true, []⟩,
    ⟨headerBlock hashG, checksWith (fun _ => true) fun _ => false, []⟩]

/-- No orphan is left, but a good block with the same kernel whose parent is not known is refused.
-/
theorem failedStake_not_exact :
    ∃ node, processBlocks headerCrypto genesisNode failedStake = some node ∧
      node.mapOrphanBlocks.keys = [] ∧
      (processBlock headerCrypto node
        ⟨stakeBlock hashB, checksWith (fun _ => true) fun _ => true, []⟩).map (·.2) = some false ∧
      (processBlock headerCrypto genesisNode
        ⟨stakeBlock hashB, checksWith (fun _ => true) fun _ => true, []⟩).map (·.2) = some true ∧
      ¬ node.StakesExact := by
  have hempty : ((processBlocks headerCrypto genesisNode failedStake).get
      (by decide +kernel)).mapOrphanBlocks.keys = [] := by decide +kernel
  refine ⟨_, (Option.some_get _).symm, hempty, by decide +kernel, by decide +kernel,
    fun hexact => ?_⟩
  obtain ⟨hash, b, hb, -⟩ := (hexact (stakeBlock hashA).getProofOfStake).mp (by decide +kernel)
  have hkey := AList.mem_keys.mp (mem_of_lookup hb)
  rw [hempty] at hkey
  cases hkey

end

end NovaCoin
