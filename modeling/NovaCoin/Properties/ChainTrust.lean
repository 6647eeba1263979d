import NovaCoin.Properties.BestChain
import NovaCoin.Spec.LoadIndex

/-!
# Chain trust

The trust of a block is computed as a big number and then cut to 256 bits. If all targets are in
range nothing is lost: the number is at least 1, and at most `trustBound`.
-/

namespace NovaCoin

open Guard

/-! ## The trust of a block as a number -/

/-- `GetBlockTrust` before the conversion to `uint256`. -/
def exactBlockTrust (fProofOfStake : Bool) (nBits : UInt32) (pprev : PIndex) : Int :=
  let bnTarget := setCompact nBits
  if bnTarget ≤ 0 then 0
  else match pprev with
    | [] => 1
    | prev :: rest =>
      if prev.nHeight < 12 then 1
      else if fProofOfStake then
        let bnNewTrust := targetTrust bnTarget
        if !prev.isProofOfWork then bnNewTrust.tdiv 3
        else if countLast12 CBlockIndex.isProofOfWork pprev < 3 then bnNewTrust.tdiv 3
        else bnNewTrust
      else
        let bnPoWTrust := max (nPoWBase.tdiv (bnTarget + 1)) 1
        let prevTrust := (rest.head?.map (·.nChainTrust)).getD 0
        let bnLastBlockTrust : Int := (prev.nChainTrust - prevTrust).toNat
        let twoThirds := bnPoWTrust + (2 * bnLastBlockTrust).tdiv 3
        if !(prev.isProofOfStake && (rest.head?.map (·.isProofOfStake)).getD false) then twoThirds
        else if countLast12 CBlockIndex.isProofOfStake pprev < 7 then twoThirds
        else
          let bnPrevTarget := setCompact prev.nBits
          if bnPrevTarget ≤ 0 then 0 else bnPoWTrust + targetTrust bnPrevTarget

theorem getBlockTrust_eq_getuint256 (fProofOfStake : Bool) (nBits : UInt32) (pprev : PIndex) :
    getBlockTrust fProofOfStake nBits pprev = getuint256 (exactBlockTrust fProofOfStake nBits pprev) := by
  unfold getBlockTrust exactBlockTrust
  by_cases htarget : setCompact nBits ≤ 0
  · rw [if_pos htarget, if_pos htarget]
    rfl
  rw [if_neg htarget, if_neg htarget]
  cases pprev with
  | nil => rfl
  | cons prev rest =>
    simp only [apply_ite getuint256]
    rfl

/-! ## Bounds -/

/-- The largest trust a block can have: the full score of a parent and the largest work. -/
def trustBound : Int := 2 ^ 255 + 2 ^ 223

theorem targetTrust_mem {bnTarget : Int} (hpos : 0 < bnTarget) (hle : bnTarget ≤ 2 ^ 240 - 1) :
    2 ^ 16 ≤ targetTrust bnTarget ∧ targetTrust bnTarget ≤ 2 ^ 255 := by
  rw [targetTrust, Int.tdiv_eq_ediv_of_nonneg (by norm_num)]
  constructor
  · rw [Int.le_ediv_iff_mul_le (by omega)]
    calc (2 : Int) ^ 16 * (bnTarget + 1) ≤ 2 ^ 16 * 2 ^ 240 := by omega
      _ = 2 ^ 256 := by norm_num
  · refine Int.ediv_le_of_le_mul (by omega) ?_
    calc (2 : Int) ^ 256 = 2 ^ 255 * 2 := by norm_num
      _ ≤ 2 ^ 255 * (bnTarget + 1) := by omega

theorem workTrust_mem {bnTarget : Int} (hpos : 0 < bnTarget) :
    1 ≤ max (nPoWBase.tdiv (bnTarget + 1)) 1 ∧ max (nPoWBase.tdiv (bnTarget + 1)) 1 ≤ 2 ^ 223 := by
  refine ⟨le_max_right _ _, max_le ?_ (by norm_num)⟩
  have hbase : (0 : Int) ≤ nPoWBase ∧ nPoWBase ≤ 2 ^ 224 := by
    unfold nPoWBase
    norm_num
  rw [Int.tdiv_eq_ediv_of_nonneg hbase.1]
  refine Int.ediv_le_of_le_mul (by omega) ?_
  calc nPoWBase ≤ 2 ^ 223 * 2 := by omega
    _ ≤ 2 ^ 223 * (bnTarget + 1) := by omega

/-- The bound passes from the parent, of which a proof-of-work block takes two thirds. -/
theorem exactBlockTrust_mem {fProofOfStake : Bool} {nBits : UInt32} {pprev : PIndex}
    (hpos : 0 < setCompact nBits) (hle : setCompact nBits ≤ 2 ^ 240 - 1)
    (hprev : ∀ prev rest, pprev = prev :: rest → 0 < setCompact prev.nBits ∧
      setCompact prev.nBits ≤ 2 ^ 240 - 1 ∧
      ((prev.nChainTrust - chainTrust rest).toNat : Int) ≤ trustBound) :
    1 ≤ exactBlockTrust fProofOfStake nBits pprev ∧
      exactBlockTrust fProofOfStake nBits pprev ≤ trustBound := by
  have hbound : trustBound = 2 ^ 255 + 2 ^ 223 := rfl
  obtain ⟨hlow, hhigh⟩ := targetTrust_mem hpos hle
  obtain ⟨hlow', hhigh'⟩ := workTrust_mem hpos
  unfold exactBlockTrust
  rw [if_neg (by omega)]
  cases pprev with
  | nil => constructor <;> norm_num [trustBound]
  | cons prev rest =>
    obtain ⟨hposPrev, hlePrev, hlast⟩ := hprev prev rest rfl
    obtain ⟨hlowPrev, hhighPrev⟩ := targetTrust_mem hposPrev hlePrev
    have hthird : (targetTrust (setCompact nBits)).tdiv 3 = targetTrust (setCompact nBits) / 3 :=
      Int.tdiv_eq_ediv_of_nonneg (by omega)
    -- two thirds of the parent's trust and the work are below the bound again
    have hshare : ∀ trust : Nat, (2 * (trust : Int)).tdiv 3 = 2 * trust / 3 :=
      fun trust => Int.tdiv_eq_ediv_of_nonneg (by omega)
    rw [chainTrust] at hlast
    simp only [hthird, hshare]
    split_ifs
    all_goals omega

/-! ## Trees -/

variable {params : ChainParams} {mapProofOfStake : Uint256 → Option Uint256} {tree : BlockTree}

section Tree

variable {blocks : Set CBlock} {r : FullIndex} {pprev : PFullIndex}

def TargetsInRange (fTestNet : Bool) (tree : BlockTree) : Prop :=
  ∀ (hash : Uint256) (r : FullIndex) (pprev : PFullIndex), tree.lookup hash = some (r :: pprev) →
    0 < setCompact r.nBits ∧ setCompact r.nBits ≤ getTargetLimit fTestNet pprev.pindex r.fProofOfStake

/-- The chain trust of a record without that of its parent is the trust of the block. -/
theorem nChainTrust_sub {b : CBlock} (h : RecordOf params pprev b r) :
    r.nChainTrust - chainTrust pprev.pindex =
      getuint256 (exactBlockTrust r.fProofOfStake r.nBits pprev.pindex) := by
  rw [h.nChainTrust, getBlockTrust_eq_getuint256, BitVec.add_comm]
  exact BitVec.add_sub_cancel _ _

theorem toNat_getuint256 {n : Int} (hpos : 0 ≤ n) (hlt : n < 2 ^ 256) : ((getuint256 n).toNat : Int) = n := by
  rw [getuint256, BitVec.toNat_ofNat]
  omega

/-- Induction on the ancestors. -/
theorem TreeOk.exactBlockTrust_mem (h : TreeOk params mapProofOfStake blocks tree)
    (htargets : TargetsInRange params.fTestNet tree) :
    ∀ (pprev : PFullIndex) {hash : Uint256} {r : FullIndex}, tree.lookup hash = some (r :: pprev) →
      1 ≤ exactBlockTrust r.fProofOfStake r.nBits pprev.pindex ∧
        exactBlockTrust r.fProofOfStake r.nBits pprev.pindex ≤ trustBound := by
  intro pprev
  induction pprev with
  | nil =>
    intro hash r hfind
    obtain ⟨hpos, hle⟩ := htargets hash r [] hfind
    exact NovaCoin.exactBlockTrust_mem hpos (hle.trans (getTargetLimit_mem _ _ _).2)
      fun prev rest hnil => absurd hnil.symm (List.cons_ne_nil _ _)
  | cons prev rest ih =>
    intro hash r hfind
    obtain ⟨hpos, hle⟩ := htargets hash r _ hfind
    refine NovaCoin.exactBlockTrust_mem hpos (hle.trans (getTargetLimit_mem _ _ _).2) ?_
    rintro prev' rest' heq
    obtain ⟨rfl, rfl⟩ := List.cons.inj heq
    obtain ⟨b, -, -, hr⟩ := h.record hfind
    have hfindPrev := hr.indexed_pprev prev rest List.suffix_rfl
    obtain ⟨hposPrev, hlePrev⟩ := htargets _ prev rest hfindPrev
    obtain ⟨bPrev, -, -, hrPrev⟩ := h.record hfindPrev
    obtain ⟨hlow, hhigh⟩ := ih hfindPrev
    have hlast : ((prev.nChainTrust - chainTrust (PFullIndex.pindex rest)).toNat : Int) ≤ trustBound := by
      rw [nChainTrust_sub hrPrev.recordOf, toNat_getuint256 (by omega)]
      · exact hhigh
      · exact lt_of_le_of_lt hhigh (by norm_num [trustBound])
    exact ⟨hposPrev, hlePrev.trans (getTargetLimit_mem _ _ _).2, hlast⟩

theorem TreeOk.nChainTrust_gt (h : TreeOk params mapProofOfStake blocks tree)
    (htargets : TargetsInRange params.fTestNet tree) {hash : Uint256}
    (hfind : tree.lookup hash = some (r :: pprev))
    (hsum : ((chainTrust pprev.pindex).toNat : Int) +
      exactBlockTrust r.fProofOfStake r.nBits pprev.pindex < 2 ^ 256) :
    chainTrust pprev.pindex < r.nChainTrust := by
  obtain ⟨hlow, -⟩ := h.exactBlockTrust_mem htargets pprev hfind
  obtain ⟨b, -, -, hr⟩ := h.record hfind
  have hnat := toNat_getuint256 (n := exactBlockTrust r.fProofOfStake r.nBits pprev.pindex) (by omega)
    (by omega)
  rw [hr.recordOf.nChainTrust, getBlockTrust_eq_getuint256, BitVec.lt_def, BitVec.toNat_add]
  omega

end Tree

/-! ## The block index of the best chain

`BestChain.lean` has its own account of `AddToBlockIndex`, in which whether the checks before the
insertion pass is an outcome. With the outcome computed here its block index is the tree. -/

section Tracks

variable {st : ChainState}

/-- The block index of the state has the records of the tree. -/
def Tracks (st : ChainState) (tree : BlockTree) : Prop :=
  ∀ hash, st.mapBlockIndex hash = (tree.lookup hash).map PFullIndex.pindex

/-- In every case but the first the index of the new state is that with the record. -/
theorem mapBlockIndex_step (c : Call) (crypto : Crypto) (st : ChainState) :
    (c.step crypto st).mapBlockIndex =
      if (st.mapBlockIndex (crypto.blockHash c.b)).isSome || !c.out.indexOk then st.mapBlockIndex
      else (c.inserted crypto st).mapBlockIndex := by
  rw [c.step_eq]
  split
  · rfl
  · split
    · rfl
    · split
      · exact mapBlockIndex_setBestChain _ _ _ _
      · rfl

/-- One call of `AddToBlockIndex`. -/
theorem Tracks.step (h : Tracks st tree) (c : Call)
    (hout : c.out.indexOk =
      (tree.add params mapProofOfStake c.b c.nFile c.nBlockPos).toOption.isSome) :
    Tracks (c.step params.crypto st)
      ((tree.add params mapProofOfStake c.b c.nFile c.nBlockPos).toOption.getD tree) := by
  intro hash
  rw [mapBlockIndex_step, hout]
  cases hadd : tree.add params mapProofOfStake c.b c.nFile c.nBlockPos with
  | error e =>
    exact (congrFun (if_pos (Bool.or_true _)) hash).trans (h hash)
  | ok tree' =>
    obtain ⟨hfresh, r, hr, rfl⟩ := BlockTree.add_eq_ok hadd
    have hprev : (st.mapBlockIndex c.b.hashPrevBlock).getD [] =
        PFullIndex.pindex ((tree.lookup c.b.hashPrevBlock).getD []) := by
      rw [h]
      cases tree.lookup c.b.hashPrevBlock <;> rfl
    rw [h, AList.lookup_eq_none.mpr hfresh]
    show (if hash = _ then _ else _) = Option.map PFullIndex.pindex ((tree.insert _ _).lookup hash)
    split
    · next hsame =>
      rw [hsame, Call.pindexNew, hprev, ← (fullRecord_eq_ok hr).2, AList.lookup_insert]
      rfl
    · next hne => rw [h, AList.lookup_insert_ne hne]

variable (params mapProofOfStake) in
/-- Runs of `AddToBlockIndex` from an empty block index, beside the trees of the same blocks. Only
whether a record can be made is fixed, not what becomes of the block in `SetBestChain`. -/
inductive IndexRun (blocks : Set CBlock) : ChainState → BlockTree → Prop
  | empty (st : ChainState) (h : ∀ hash, st.mapBlockIndex hash = none) : IndexRun blocks st ∅
  | add {st : ChainState} {tree : BlockTree} (h : IndexRun blocks st tree) (c : Call)
      (hmem : c.b ∈ blocks) (hout : c.out.indexOk =
        (tree.add params mapProofOfStake c.b c.nFile c.nBlockPos).toOption.isSome) :
      IndexRun blocks (c.step params.crypto st)
        ((tree.add params mapProofOfStake c.b c.nFile c.nBlockPos).toOption.getD tree)

/-- No reorganization, and none that fails, changes what is known of the blocks. -/
theorem IndexRun.tracks {blocks : Set CBlock} (h : IndexRun params mapProofOfStake blocks st tree) :
    Tracks st tree ∧ TreeOk params mapProofOfStake blocks tree := by
  induction h with
  | empty _ h => exact ⟨h, treeOk_empty⟩
  | add _ c hmem hout ih =>
    have harrival : ∀ a ∈ [Arrival.mk c.b c.nFile c.nBlockPos], a.b ∈ blocks := by simpa using hmem
    exact ⟨ih.1.step c hout, treeOk_addAll harrival ih.2⟩

/-- Two nodes that know a block have the same hash, height, chain trust, type, time and target of it
and its ancestors, and the same records, up to the places on disk and the amounts, if both were told
the same proof hashes. -/
theorem mapBlockIndex_agrees (blocks : Set CBlock) (hblocks : BlockSet params blocks)
    {mapProofOfStake' : Uint256 → Option Uint256} {st' : ChainState} {tree' : BlockTree}
    (h : IndexRun params mapProofOfStake blocks st tree)
    (h' : IndexRun params mapProofOfStake' blocks st' tree') (hash : Uint256) (pindex pindex' : PIndex)
    (hfind : st.mapBlockIndex hash = some pindex) (hfind' : st'.mapBlockIndex hash = some pindex') :
    pindex.map CBlockIndex.core = pindex'.map CBlockIndex.core ∧
      ∃ chain chain', tree.lookup hash = some chain ∧ tree'.lookup hash = some chain' ∧
        chain.pindex = pindex ∧ chain'.pindex = pindex' ∧
        ((∀ i ∈ chain, i.fProofOfStake →
            mapProofOfStake i.hashBlock = mapProofOfStake' i.hashBlock) →
          chain.map FullIndex.core = chain'.map FullIndex.core) := by
  rw [h.tracks.1, Option.map_eq_some_iff] at hfind
  rw [h'.tracks.1, Option.map_eq_some_iff] at hfind'
  obtain ⟨chain, hchain, rfl⟩ := hfind
  obtain ⟨chain', hchain', rfl⟩ := hfind'
  exact ⟨same_pindex hblocks h.tracks.2 h'.tracks.2 chain chain' hash hchain hchain',
    chain, chain', hchain, hchain', rfl, rfl,
    same_core hblocks h.tracks.2 h'.tracks.2 chain chain' hash hchain hchain'⟩

end Tracks

/-- Chain trust is strictly increasing, and independent of the order in which blocks came and of a
restart. So is the checksum, if the proof hashes that were recorded are the same. -/
theorem chainTrust_history_independent (params : ChainParams)
    (mapProofOfStake : Uint256 → Option Uint256) (blocks : Set CBlock) (hblocks : BlockSet params blocks)
    (arrivals : List Arrival) (harrivals : ∀ a ∈ arrivals, a.b ∈ blocks) :
    let tree := BlockTree.addAll params mapProofOfStake ∅ arrivals
    (TargetsInRange params.fTestNet tree →
      ∀ (hash : Uint256) (r : FullIndex) (pprev : PFullIndex), tree.lookup hash = some (r :: pprev) →
        let trust := exactBlockTrust r.fProofOfStake r.nBits pprev.pindex
        1 ≤ trust ∧ trust < 2 ^ 256 ∧
          ((getBlockTrust r.fProofOfStake r.nBits pprev.pindex).toNat : Int) = trust ∧
          (((chainTrust pprev.pindex).toNat : Int) + trust < 2 ^ 256 →
            chainTrust pprev.pindex < r.nChainTrust)) ∧
    (∀ (mapProofOfStake' : Uint256 → Option Uint256) (arrivals' : List Arrival),
      (∀ a ∈ arrivals', a.b ∈ blocks) →
      ∀ (hash : Uint256) (r r' : FullIndex) (pprev pprev' : PFullIndex),
        tree.lookup hash = some (r :: pprev) →
        (BlockTree.addAll params mapProofOfStake' ∅ arrivals').lookup hash = some (r' :: pprev') →
        r'.nChainTrust = r.nChainTrust ∧
          ((∀ i ∈ r :: pprev, i.fProofOfStake →
              mapProofOfStake i.hashBlock = mapProofOfStake' i.hashBlock) →
            r'.nStakeModifierChecksum = r.nStakeModifierChecksum)) ∧
    (∀ (entries : List CDiskBlockIndex) (fUseFastIndex : Bool) (nAdjustedTime : Int),
      Stores params tree entries →
      ∃ mapBlockIndex,
        readBlockIndex params.crypto fUseFastIndex nAdjustedTime entries = .ok mapBlockIndex ∧
        ∀ vSortedByHeight, SortedByHeight mapBlockIndex vSortedByHeight →
          ∃ loaded, foldAll (calculateTrust params) mapBlockIndex vSortedByHeight = .ok loaded ∧
            ∀ (hash : Uint256) (r : FullIndex) (pprev : PFullIndex),
              tree.lookup hash = some (r :: pprev) →
              ∃ pindex, loaded.lookup hash = some pindex ∧
                pindex.record.nChainTrust = r.nChainTrust ∧
                pindex.record.nStakeModifierChecksum = r.nStakeModifierChecksum) := by
  have hempty : TreeOk params mapProofOfStake blocks ∅ := treeOk_empty
  have htree := treeOk_addAll harrivals hempty
  refine ⟨fun htargets hash r pprev hfind => ?_, fun mapProofOfStake' arrivals' harrivals' => ?_,
    fun entries fUseFastIndex nAdjustedTime hentries => ?_⟩
  · obtain ⟨hlow, hhigh⟩ := htree.exactBlockTrust_mem htargets pprev hfind
    have hlt : exactBlockTrust r.fProofOfStake r.nBits pprev.pindex < 2 ^ 256 :=
      lt_of_le_of_lt hhigh (by norm_num [trustBound])
    refine ⟨hlow, hlt, ?_, htree.nChainTrust_gt htargets hfind⟩
    rw [getBlockTrust_eq_getuint256, toNat_getuint256 (by omega) hlt]
  · intro hash r r' pprev pprev' hfind hfind'
    have hempty' : TreeOk params mapProofOfStake' blocks ∅ := treeOk_empty
    have htree' := treeOk_addAll harrivals' hempty'
    have htrust := (List.cons.inj (same_pindex hblocks htree htree' _ _ hash hfind hfind')).1
    refine ⟨(congrArg (·.nChainTrust) htrust).symm, fun hproofs => ?_⟩
    have hcore := (List.cons.inj (same_core hblocks htree htree' _ _ hash hfind hfind' hproofs)).1
    exact (congrArg (·.nStakeModifierChecksum) hcore).symm
  · obtain ⟨map, hread, hload⟩ := loaded_core hblocks htree hentries fUseFastIndex nAdjustedTime
    refine ⟨map, hread, fun vSortedByHeight hsorted => ?_⟩
    obtain ⟨loaded, hfold, hcore⟩ := hload vSortedByHeight hsorted
    refine ⟨loaded, hfold, fun hash r pprev hfind => ?_⟩
    obtain ⟨l, hl, hl'⟩ := hcore hash r pprev hfind
    exact ⟨l, hl, (congrArg (·.nChainTrust) hl' :), (congrArg (·.nStakeModifierChecksum) hl' :)⟩

/-! ### Children of the genesis block -/

/-- The last bytes of the hash are those of the test network's checkpoint for the genesis block, and
the first bytes of the proof hash for a child. -/
def checkpointCrypto : Crypto :=
  { headerCrypto with
    sha256 := fun v =>
      if v.length = 48 then List.replicate 28 1 ++ (v.drop 8).take 4
      else if v.head? = some 1 then v
      else List.replicate 28 0 ++ [0x0b, 0x67, 0x00, 0x0e] }

def checkpointParams : ChainParams := ⟨checkpointCrypto, true, hashG⟩

def siblingBlock : CBlock := { headerBlock hashG with nNonce := 1 }

def siblings : Set CBlock := {headerBlock 0, headerBlock hashG, siblingBlock}

theorem blockSet_siblings : BlockSet checkpointParams siblings := by
  refine ⟨?_, ?_, ?_⟩
  · rintro b (rfl | rfl | rfl) b' (rfl | rfl | rfl) he
    all_goals first | exact absurd he (by decide +kernel) | rfl
  · rintro b (rfl | rfl | rfl)
    all_goals decide +kernel
  · rintro b (rfl | rfl | rfl)
    all_goals decide +kernel

def siblingArrivals : List Arrival :=
  [⟨headerBlock 0, 1, 8⟩, ⟨headerBlock hashG, 1, 100⟩, ⟨siblingBlock, 1, 200⟩]

def siblingArrivals' : List Arrival :=
  [⟨headerBlock 0, 1, 8⟩, ⟨siblingBlock, 1, 100⟩, ⟨headerBlock hashG, 1, 300⟩]

/-- Two orders of the children, and a restart. -/
theorem siblings_same_trust : ∃ r r' : FullIndex, ∃ pprev pprev' : PFullIndex,
    (BlockTree.addAll checkpointParams (fun _ => none) ∅ siblingArrivals).lookup
        (headerCrypto.blockHash siblingBlock) = some (r :: pprev) ∧
    (BlockTree.addAll checkpointParams (fun _ => some 5) ∅ siblingArrivals').lookup
        (headerCrypto.blockHash siblingBlock) = some (r' :: pprev') ∧
    r'.nChainTrust = r.nChainTrust ∧ r'.nStakeModifierChecksum = r.nStakeModifierChecksum ∧
    ∃ entries mapBlockIndex vSortedByHeight loaded pindex,
      Stores checkpointParams (BlockTree.addAll checkpointParams (fun _ => none) ∅ siblingArrivals)
        entries ∧
      readBlockIndex checkpointCrypto true 1600000000 entries = .ok mapBlockIndex ∧
      foldAll (calculateTrust checkpointParams) mapBlockIndex vSortedByHeight = .ok loaded ∧
      loaded.lookup (headerCrypto.blockHash siblingBlock) = some pindex ∧
      pindex.record.nChainTrust = r.nChainTrust ∧
      pindex.record.nStakeModifierChecksum = r.nStakeModifierChecksum := by
  have hmem : ∀ a ∈ siblingArrivals, a.b ∈ siblings := by
    simp [siblingArrivals, siblings]
  have hmem' : ∀ a ∈ siblingArrivals', a.b ∈ siblings := by
    simp [siblingArrivals', siblings]
  obtain ⟨chain, hfind, hwork⟩ : ∃ chain,
      (BlockTree.addAll checkpointParams (fun _ => none) ∅ siblingArrivals).lookup
        (headerCrypto.blockHash siblingBlock) = some chain ∧ ∀ i ∈ chain, i.fProofOfStake = false := by
    decide +kernel
  obtain ⟨chain', hfind'⟩ := Option.isSome_iff_exists.mp (by decide +kernel :
    ((BlockTree.addAll checkpointParams (fun _ => some 5) ∅ siblingArrivals').lookup
      (headerCrypto.blockHash siblingBlock)).isSome)
  obtain ⟨-, r, pprev, rfl, -⟩ := treeOk_addAll hmem treeOk_empty _ _ hfind
  obtain ⟨-, r', pprev', rfl, -⟩ := treeOk_addAll hmem' treeOk_empty _ _ hfind'
  obtain ⟨-, horder, hrestart⟩ := chainTrust_history_independent checkpointParams (fun _ => none)
    siblings blockSet_siblings siblingArrivals hmem
  obtain ⟨htrust, hchecksum⟩ := horder _ siblingArrivals' hmem' _ r r' pprev pprev' hfind hfind'
  obtain ⟨mapBlockIndex, hread, hload⟩ := hrestart _ true 1600000000 (stores_diskEntries _ _)
  obtain ⟨vSortedByHeight, hsorted⟩ := exists_sortedByHeight mapBlockIndex
  obtain ⟨loaded, hfold, hrecords⟩ := hload vSortedByHeight hsorted
  obtain ⟨pindex, hpindex, hsame⟩ := hrecords _ r pprev hfind
  exact ⟨r, r', pprev, pprev', hfind, hfind', htrust,
    hchecksum fun i hi hstake => absurd hstake (by simp [hwork i hi]), _, mapBlockIndex,
    vSortedByHeight, loaded, pindex, stores_diskEntries _ _, hread, hfold, hpindex, hsame⟩

def stakeChild : CBlock :=
  { headerBlock hashG with
    vtx := [⟨1, 0, [], [], 0⟩, ⟨1, 0, [⟨⟨7, 0⟩, [], 0⟩], [⟨0, []⟩, ⟨1, [0x51]⟩], 0⟩] }

/-- The checksum of a proof-of-stake block, if `ProcessBlock` has recorded the proof hash `n`. -/
def stakeChecksum (n : Uint256) : Option UInt32 := do
  let chain ← (BlockTree.addAll checkpointParams (fun _ => some n) ∅
    [⟨headerBlock 0, 1, 8⟩, ⟨stakeChild, 1, 100⟩]).lookup (headerCrypto.blockHash stakeChild)
  let pindex ← chain.head?
  pure pindex.nStakeModifierChecksum

/-- One block, two proof hashes, two checksums. -/
theorem checksum_depends_on_proof : stakeChecksum 5 = some 5 ∧ stakeChecksum 6 = some 6 := by
  decide +kernel

/-- One node has connected the block, the other one could not. -/
theorem siblings_agree : ∃ st st' : ChainState, ∃ pindex pindex',
    st.mapBlockIndex (headerCrypto.blockHash siblingBlock) = some pindex ∧
    st'.mapBlockIndex (headerCrypto.blockHash siblingBlock) = some pindex' ∧
    pindex.map CBlockIndex.core = pindex'.map CBlockIndex.core := by
  let out (ok : Bool) : Outcomes := ⟨true, true, fun _ => ok, fun _ => ok, fun _ => ok, fun _ => ok⟩
  -- the nodes have recorded different proof hashes
  let proof (ok : Bool) (_ : Uint256) : Option Uint256 := if ok then some 5 else some 6
  have hempty : ∀ ok, IndexRun checkpointParams (proof ok) siblings
      ⟨fun _ => none, fun _ => none, 0, 0, [], 0, 0, 0, 0, none⟩ ∅ := fun _ => .empty _ fun _ => rfl
  have hgenesis := fun ok => (hempty ok).add
    ⟨headerBlock 0, 1, 8, out true⟩ (.inl rfl) (by cases ok <;> decide +kernel)
  have hrun := fun ok => (hgenesis ok).add ⟨siblingBlock, 1, 9, out ok⟩ (.inr (.inr rfl))
    (by cases ok <;> decide +kernel)
  have hknown := fun ok => Option.isSome_iff_exists.mp ((congrArg Option.isSome
    ((hrun ok).tracks.1 (headerCrypto.blockHash siblingBlock))).trans (by cases ok <;> decide +kernel))
  obtain ⟨pindex, hfind⟩ := hknown true
  obtain ⟨pindex', hfind'⟩ := hknown false
  exact ⟨_, _, _, _, hfind, hfind', (mapBlockIndex_agrees siblings blockSet_siblings (hrun true)
    (hrun false) _ _ _ hfind hfind').1⟩

end NovaCoin
