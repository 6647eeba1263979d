import NovaCoin.BlockIndex
import NovaCoin.Properties.StakeModifier

/-!
# What a block index record depends on

A record is computed from the block and the records of its ancestors. Where the block is stored and
what `ConnectBlock` adds later is not used, and neither is what else is in the block index. So two
block indexes that have a block in common have the same height and chain trust for it
(`same_pindex`), and the same record if they were told the same proof-of-stake hashes (`same_core`).
-/

namespace NovaCoin

open Guard List

/-! ## The core of a record -/

def CBlockIndex.core (i : CBlockIndex) : CBlockIndex :=
  { i with nFile := 0, nBlockPos := 0, nMint := 0, nMoneySupply := 0 }

def FullIndex.core (i : FullIndex) : FullIndex :=
  { i with nFile := 0, nBlockPos := 0, nMint := 0, nMoneySupply := 0 }

theorem pindex_map_core (pindex : PFullIndex) :
    PFullIndex.pindex (pindex.map FullIndex.core) = pindex.pindex.map CBlockIndex.core := by
  simp only [PFullIndex.pindex, map_map]
  rfl

theorem getBlockTrust_core (fProofOfStake : Bool) (nBits : UInt32) (pprev : PIndex) :
    getBlockTrust fProofOfStake nBits (pprev.map CBlockIndex.core) =
      getBlockTrust fProofOfStake nBits pprev := by
  have hcount : ∀ kind : CBlockIndex → Bool, (∀ i : CBlockIndex, kind i.core = kind i) →
      countLast12 kind (pprev.map CBlockIndex.core) = countLast12 kind pprev := by
    intro kind hkind
    cases pprev with
    | nil => rfl
    | cons prev rest =>
      rw [map_cons, countLast12, ← map_cons, takeWhile_map, filter_map, length_map]
      congr 1
      exact filter_congr fun i _ => hkind i
  have hwork := hcount CBlockIndex.isProofOfWork fun _ => rfl
  have hstake := hcount CBlockIndex.isProofOfStake fun _ => rfl
  cases pprev with
  | nil => rfl
  | cons prev rest =>
    rw [map_cons] at hwork hstake ⊢
    unfold getBlockTrust
    simp only [hwork, hstake, head?_map, Option.map_map]
    rfl

theorem chainTrust_core (pprev : PIndex) : chainTrust (pprev.map CBlockIndex.core) = chainTrust pprev := by
  cases pprev <;> rfl

theorem height_core (pprev : PIndex) : height (pprev.map CBlockIndex.core) = height pprev := by
  cases pprev <;> rfl

/-! ## The stake modifier -/

variable {chain pprev' pprev : PFullIndex} {mapBlockIndex' : Uint256 → Option PFullIndex}
  {params : ChainParams} {mapProofOfStake mapProofOfStake' : Uint256 → Option Uint256} {b : CBlock}
  {r : FullIndex}

section Modifier

variable (params : ChainParams) (mapBlockIndex : Uint256 → Option PFullIndex)

def coreIndex (hash : Uint256) : Option PFullIndex :=
  (mapBlockIndex hash).map (List.map FullIndex.core)

theorem coreIndex_head (hash : Uint256) : (coreIndex mapBlockIndex hash).bind List.head? =
    ((mapBlockIndex hash).bind List.head?).map FullIndex.core := by
  rw [coreIndex]
  cases mapBlockIndex hash with
  | none => rfl
  | some pindex => cases pindex <;> rfl

theorem getLastStakeModifier_core : ∀ pindex : PFullIndex,
    getLastStakeModifier (pindex.map FullIndex.core) = getLastStakeModifier pindex
  | [] => rfl
  | [_] => rfl
  | pindex :: prev :: rest => by
    have ih := getLastStakeModifier_core (prev :: rest)
    rw [map_cons, map_cons, getLastStakeModifier, ← map_cons, ih]
    rfl

/-- The selection reads no field that `core` drops. -/
theorem selectLoop_core (mapSelectedBlocks : List FullIndex) (nSelectionIntervalStop : Int)
    (nStakeModifierPrev : UInt64) : ∀ (l : List (Int × Uint256)) (best : Option FullIndex),
      selectLoop params.crypto (coreIndex mapBlockIndex) (mapSelectedBlocks.map FullIndex.core)
          nSelectionIntervalStop nStakeModifierPrev (best.map FullIndex.core) l =
        (selectLoop params.crypto mapBlockIndex mapSelectedBlocks nSelectionIntervalStop
          nStakeModifierPrev best l).map (Option.map FullIndex.core)
  | [], _ => rfl
  | item :: rest, best => by
    rw [selectLoop, selectLoop, coreIndex_head]
    cases hfind : (mapBlockIndex item.2).bind head? with
    | none => rfl
    | some pindex =>
      have hany : ((mapSelectedBlocks.map FullIndex.core).any
          (·.hashBlock == pindex.core.hashBlock)) =
          mapSelectedBlocks.any (·.hashBlock == pindex.hashBlock) := by
        rw [any_map]
        rfl
      have htime : pindex.core.getBlockTime = pindex.getBlockTime := rfl
      show (if _ then _ else if _ then _ else _) = Except.map _ (if _ then _ else if _ then _ else _)
      rw [hany, Option.isSome_map, htime]
      by_cases hstop : (best.isSome && decide (nSelectionIntervalStop < pindex.getBlockTime))
      · rw [if_pos hstop, if_pos hstop]
        rfl
      · rw [if_neg hstop, if_neg hstop]
        by_cases htaken : (mapSelectedBlocks.any (·.hashBlock == pindex.hashBlock))
        · rw [if_pos htaken, if_pos htaken]
          exact selectLoop_core mapSelectedBlocks nSelectionIntervalStop nStakeModifierPrev rest best
        · rw [if_neg htaken, if_neg htaken, ← selectLoop_core]
          cases best with
          | none => rfl
          | some b =>
            have hbetter : ∀ better : Bool, (if better = true then some pindex.core else some b.core) =
                Option.map FullIndex.core (if better = true then some pindex else some b) := by
              intro better
              cases better <;> rfl
            exact congrArg (fun best => selectLoop params.crypto (coreIndex mapBlockIndex)
              (mapSelectedBlocks.map FullIndex.core) nSelectionIntervalStop nStakeModifierPrev best rest)
              (hbetter _)

theorem modifierRound_core (vSortedByTimestamp : List (Int × Uint256)) (nStakeModifier : UInt64)
    (s : ModifierState) (nRound : Nat) :
    modifierRound params (coreIndex mapBlockIndex) vSortedByTimestamp nStakeModifier
        { s with mapSelectedBlocks := s.mapSelectedBlocks.map FullIndex.core } nRound =
      (modifierRound params mapBlockIndex vSortedByTimestamp nStakeModifier s nRound).map fun s =>
        { s with mapSelectedBlocks := s.mapSelectedBlocks.map FullIndex.core } := by
  unfold modifierRound selectBlockFromCandidates
  have hloop := selectLoop_core params mapBlockIndex s.mapSelectedBlocks (s.nSelectionIntervalStop +
    getStakeModifierSelectionIntervalSection params.fTestNet nRound) nStakeModifier
    vSortedByTimestamp none
  simp only [Option.map_none] at hloop
  simp only [hloop]
  cases selectLoop params.crypto mapBlockIndex s.mapSelectedBlocks (s.nSelectionIntervalStop +
    getStakeModifierSelectionIntervalSection params.fTestNet nRound) nStakeModifier none
    vSortedByTimestamp with
  | error e => rfl
  | ok best =>
    cases best with
    | none => rfl
    | some pindex =>
      show Except.ok _ = Except.ok _
      simp only [map_append, map_cons, map_nil]
      rfl

theorem sortCandidates_core (l : List FullIndex) :
    sortCandidates (l.map FullIndex.core) = sortCandidates l := by
  rw [sortCandidates, map_map]
  rfl

theorem candidates_core (nSelectionIntervalStart : Int) (pindex : PFullIndex) :
    candidates nSelectionIntervalStart (pindex.map FullIndex.core) =
      (candidates nSelectionIntervalStart pindex).map FullIndex.core := by
  rw [candidates, takeWhile_map]
  rfl

/-- Neither does the modifier depend on what `core` drops. -/
theorem computeNextStakeModifier_core (pprev : PFullIndex) (nTime : UInt32) :
    computeNextStakeModifier params (coreIndex mapBlockIndex) (pprev.map FullIndex.core) nTime =
      computeNextStakeModifier params mapBlockIndex pprev nTime := by
  cases pprev with
  | nil => rfl
  | cons prev rest =>
    have hgen : ∀ nStakeModifier, generateStakeModifier params (coreIndex mapBlockIndex) prev.core
        (rest.map FullIndex.core) nStakeModifier =
        (generateStakeModifier params mapBlockIndex prev rest nStakeModifier).map fun s =>
          { s with mapSelectedBlocks := s.mapSelectedBlocks.map FullIndex.core } := by
      intro nStakeModifier
      have hstart : selectionIntervalStart params.fTestNet prev.core =
        selectionIntervalStart params.fTestNet prev := rfl
      simp only [generateStakeModifier, hstart, ← map_cons, candidates_core, sortCandidates_core]
      exact foldAll_map _ (fun s nRound => modifierRound_core params mapBlockIndex _ nStakeModifier s
        nRound) _ (⟨0, selectionIntervalStart params.fTestNet prev, []⟩ : ModifierState)
    rw [map_cons, computeNextStakeModifier, computeNextStakeModifier, ← map_cons,
      getLastStakeModifier_core]
    cases getLastStakeModifier (prev :: rest) with
    | error e => rfl
    | ok last =>
      show (if _ then _ else _) = (if _ then _ else _)
      rw [hgen]
      cases generateStakeModifier params mapBlockIndex prev rest last.1 with
      | error e => rfl
      | ok s => rfl

/-- The cores of a chain are indexed where the chain is. -/
theorem IndexedChain.core {mapBlockIndex : Uint256 → Option PFullIndex}
    (h : IndexedChain mapBlockIndex chain) :
    IndexedChain (coreIndex mapBlockIndex) (chain.map FullIndex.core) := by
  rintro pindex pprev ⟨newer, hs⟩
  obtain ⟨newer', older, rfl, -, hmap⟩ := append_eq_map_iff.mp hs
  obtain ⟨pindex', pprev', rfl, rfl, rfl⟩ := map_eq_cons_iff.mp hmap
  have hfind := h pindex' pprev' (suffix_append _ _)
  show (mapBlockIndex pindex'.hashBlock).map _ = _
  rw [hfind]
  rfl

theorem computeNextStakeModifier_congr (hindex : IndexedChain mapBlockIndex pprev)
    (hindex' : IndexedChain mapBlockIndex' pprev')
    (hcore : pprev.map FullIndex.core = pprev'.map FullIndex.core) (nTime : UInt32) :
    computeNextStakeModifier params mapBlockIndex pprev nTime =
      computeNextStakeModifier params mapBlockIndex' pprev' nTime := by
  rw [← computeNextStakeModifier_core, ← computeNextStakeModifier_core params mapBlockIndex', ← hcore]
  have hcore' := hindex'.core
  rw [← hcore] at hcore'
  cases hp : pprev.map FullIndex.core with
  | nil => rfl
  | cons prev rest =>
    have hcore₁ := hindex.core
    rw [hp] at hcore₁ hcore'
    exact computeNextStakeModifier_indexed params hcore' hcore₁ nTime

end Modifier

/-! ## Records -/

section Records

variable {mapBlockIndex : Uint256 → Option PFullIndex} {nFile nBlockPos : UInt32}

/-- What `AddToBlockIndex` has computed for a record. -/
structure RecordOf (params : ChainParams) (pprev : PFullIndex) (b : CBlock) (r : FullIndex) : Prop where
  hashBlock : r.hashBlock = params.crypto.blockHash b
  nHeight : r.nHeight = if pprev.pindex.isEmpty then 0 else height pprev.pindex + 1
  nChainTrust : r.nChainTrust =
    chainTrust pprev.pindex + getBlockTrust r.fProofOfStake r.nBits pprev.pindex
  checksum : getStakeModifierChecksum params pprev r.hashBlock r.nFlags r.hashProofOfStake
    r.nStakeModifier = some r.nStakeModifierChecksum
  checkpoint : checkStakeModifierCheckpoints params.fTestNet r.nHeight r.nStakeModifierChecksum = true
  noProof : r.fProofOfStake = false → r.hashProofOfStake = 0
  fProofOfStake : r.fProofOfStake = b.isProofOfStake
  nVersion : r.nVersion = b.nVersion
  hashMerkleRoot : r.hashMerkleRoot = b.hashMerkleRoot
  nTime : r.nTime = b.nTime
  nBits : r.nBits = b.nBits
  nNonce : r.nNonce = b.nNonce

theorem fullRecord_eq_ok
    (h : fullRecord params mapProofOfStake mapBlockIndex pprev b nFile nBlockPos = .ok r) :
    RecordOf params pprev b r ∧
      r.toCBlockIndex = newBlockIndex params.crypto pprev.pindex b nFile nBlockPos := by
  obtain ⟨-, h⟩ := require_bind_eq_ok.mp h
  obtain ⟨hashProofOfStake, hproof, h⟩ := bind_eq_ok.mp h
  obtain ⟨⟨nStakeModifier, fGenerated⟩, -, h⟩ := bind_eq_ok.mp h
  obtain ⟨checksum, hchecksum, h⟩ := bind_eq_ok.mp h
  obtain ⟨hcheckpoint, h⟩ := require_bind_eq_ok.mp h
  cases h
  refine ⟨⟨rfl, rfl, rfl, getOr_eq_ok.mp hchecksum, hcheckpoint, fun hwork => ?_, rfl, rfl, rfl, rfl,
    rfl, rfl⟩, rfl⟩
  have hwork' : b.isProofOfStake = false := hwork
  rw [recordedProof, hwork'] at hproof
  exact (Except.ok.inj hproof).symm

/-- A record without parent is that of the genesis block. -/
theorem RecordOf.genesis (h : RecordOf params [] b r) : r.hashBlock = params.hashGenesisBlock := by
  by_contra hne
  have hchecksum := h.checksum
  rw [getStakeModifierChecksum, if_pos (by simpa using hne)] at hchecksum
  cases hchecksum

theorem getStakeModifierChecksum_core (params : ChainParams) (pprev : PFullIndex) (hashBlock : Uint256)
    (nFlags : UInt32) (hashProofOfStake : Uint256) (nStakeModifier : UInt64) :
    getStakeModifierChecksum params (pprev.map FullIndex.core) hashBlock nFlags hashProofOfStake
        nStakeModifier =
      getStakeModifierChecksum params pprev hashBlock nFlags hashProofOfStake nStakeModifier := by
  cases pprev <;> rfl

theorem newBlockIndex_core (crypto : Crypto) (pprev : PIndex) (b : CBlock) (nFile nBlockPos : UInt32) :
    newBlockIndex crypto (pprev.map CBlockIndex.core) b 0 0 =
      (newBlockIndex crypto pprev b nFile nBlockPos).core := by
  rw [newBlockIndex, chainTrust_core, getBlockTrust_core, height_core, isEmpty_map]
  rfl

theorem fullRecord_core (params : ChainParams) (mapProofOfStake : Uint256 → Option Uint256)
    (mapBlockIndex : Uint256 → Option PFullIndex) (pprev : PFullIndex) (b : CBlock)
    (nFile nBlockPos : UInt32) :
    fullRecord params mapProofOfStake (coreIndex mapBlockIndex) (pprev.map FullIndex.core) b 0 0 =
      (fullRecord params mapProofOfStake mapBlockIndex pprev b nFile nBlockPos).map FullIndex.core := by
  unfold fullRecord
  simp only [pindex_map_core, newBlockIndex_core params.crypto pprev.pindex b nFile nBlockPos,
    computeNextStakeModifier_core, getStakeModifierChecksum_core]
  -- the same steps in both, and only the last builds the record
  refine bind_eq_map_bind fun _ => bind_eq_map_bind fun hashProofOfStake => bind_eq_map_bind fun modifier =>
    bind_eq_map_bind fun checksum => bind_eq_map_bind fun _ => rfl

theorem fullRecord_indexed (hindex : IndexedChain mapBlockIndex pprev)
    (hindex' : IndexedChain mapBlockIndex' pprev) :
    fullRecord params mapProofOfStake mapBlockIndex pprev b nFile nBlockPos =
      fullRecord params mapProofOfStake mapBlockIndex' pprev b nFile nBlockPos := by
  unfold fullRecord
  rw [computeNextStakeModifier_congr params mapBlockIndex hindex hindex' rfl]

theorem fullRecord_proof
    (hproof : b.isProofOfStake → mapProofOfStake (params.crypto.blockHash b) =
      mapProofOfStake' (params.crypto.blockHash b)) :
    fullRecord params mapProofOfStake mapBlockIndex pprev b nFile nBlockPos =
      fullRecord params mapProofOfStake' mapBlockIndex pprev b nFile nBlockPos := by
  have hsame : recordedProof mapProofOfStake b
      (newBlockIndex params.crypto pprev.pindex b nFile nBlockPos).hashBlock =
      recordedProof mapProofOfStake' b
        (newBlockIndex params.crypto pprev.pindex b nFile nBlockPos).hashBlock := by
    unfold recordedProof
    split
    · next hstake => exact congrArg (getOr · _) (hproof hstake)
    · rfl
  simp only [fullRecord, hsame]

theorem fullRecord_congr {nFile' nBlockPos' : UInt32} {r' : FullIndex}
    (hindex : IndexedChain mapBlockIndex pprev) (hindex' : IndexedChain mapBlockIndex' pprev')
    (hcore : pprev.map FullIndex.core = pprev'.map FullIndex.core)
    (hproof : b.isProofOfStake → mapProofOfStake (params.crypto.blockHash b) =
      mapProofOfStake' (params.crypto.blockHash b))
    (h : fullRecord params mapProofOfStake mapBlockIndex pprev b nFile nBlockPos = .ok r)
    (h' : fullRecord params mapProofOfStake' mapBlockIndex' pprev' b nFile' nBlockPos' = .ok r') :
    r.core = r'.core := by
  rw [← fullRecord_proof hproof] at h'
  have h₁ := fullRecord_core params mapProofOfStake mapBlockIndex pprev b nFile nBlockPos
  have h₂ := fullRecord_core params mapProofOfStake mapBlockIndex' pprev' b nFile' nBlockPos'
  have hi₁ := hindex.core
  have hi₂ := hindex'.core
  rw [h] at h₁
  rw [h', ← hcore] at h₂
  rw [← hcore] at hi₂
  rw [fullRecord_indexed hi₁ hi₂, h₂] at h₁
  exact (Except.ok.inj h₁).symm

end Records

/-! ## Arrival orders -/

structure Arrival where
  b : CBlock
  nFile : UInt32
  nBlockPos : UInt32

/-- The block index after the blocks have come in order, those that are refused left out. -/
def BlockTree.addAll (params : ChainParams) (mapProofOfStake : Uint256 → Option Uint256)
    (tree : BlockTree) (arrivals : List Arrival) : BlockTree :=
  arrivals.foldl (fun tree a =>
    (tree.add params mapProofOfStake a.b a.nFile a.nBlockPos).toOption.getD tree) tree

/-- The blocks of a tree: the hash stands for the block, the genesis block has no parent, and 0 is
no hash. -/
structure BlockSet (params : ChainParams) (blocks : Set CBlock) : Prop where
  inj : Set.InjOn params.crypto.blockHash blocks
  ne_zero : ∀ b ∈ blocks, params.crypto.blockHash b ≠ 0
  genesis : ∀ b ∈ blocks, params.crypto.blockHash b = params.hashGenesisBlock → b.hashPrevBlock = 0

section Tree

variable {blocks : Set CBlock} {tree : BlockTree}

/-- The record `r` with the ancestors `pprev` is that of the block `b` of the tree. -/
structure TreeRecord (params : ChainParams) (mapProofOfStake : Uint256 → Option Uint256)
    (blocks : Set CBlock) (tree : BlockTree) (b : CBlock) (r : FullIndex) (pprev : PFullIndex) :
    Prop where
  mem : b ∈ blocks
  indexed : IndexedChain tree.lookup (r :: pprev)
  parent : pprev = [] ∨ tree.lookup b.hashPrevBlock = some pprev
  made : fullRecord params mapProofOfStake tree.lookup pprev b r.nFile r.nBlockPos = .ok r

/-- Every record of the tree is that of a block, under its hash. -/
def TreeOk (params : ChainParams) (mapProofOfStake : Uint256 → Option Uint256) (blocks : Set CBlock)
    (tree : BlockTree) : Prop :=
  ∀ hash chain, tree.lookup hash = some chain → ∃ b r pprev, chain = r :: pprev ∧
    params.crypto.blockHash b = hash ∧ TreeRecord params mapProofOfStake blocks tree b r pprev

variable {tree' : BlockTree}

theorem TreeRecord.recordOf
    (h : TreeRecord params mapProofOfStake blocks tree b r pprev) : RecordOf params pprev b r :=
  (fullRecord_eq_ok h.made).1

theorem TreeRecord.indexed_pprev (h : TreeRecord params mapProofOfStake blocks tree b r pprev) :
    IndexedChain tree.lookup pprev :=
  h.indexed.of_suffix (suffix_cons _ _)

/-! ### One block -/

section Insert

variable {hash : Uint256} {new : PFullIndex}

theorem lookup_insert_of_some (hfresh : hash ∉ tree) {hash' : Uint256}
    (h : tree.lookup hash' = some chain) : (tree.insert hash new).lookup hash' = some chain := by
  have hne : hash' ≠ hash := by
    rintro rfl
    rw [AList.lookup_eq_none.mpr hfresh] at h
    cases h
  rw [AList.lookup_insert_ne hne, h]

theorem IndexedChain.insert (hfresh : hash ∉ tree) (h : IndexedChain tree.lookup chain) :
    IndexedChain (tree.insert hash new).lookup chain :=
  fun pindex pprev hs => lookup_insert_of_some hfresh (h pindex pprev hs)

theorem TreeRecord.insert (hfresh : hash ∉ tree)
    (h : TreeRecord params mapProofOfStake blocks tree b r pprev) :
    TreeRecord params mapProofOfStake blocks (tree.insert hash new) b r pprev where
  mem := h.mem
  indexed := h.indexed.insert hfresh
  parent := h.parent.imp_right (lookup_insert_of_some hfresh)
  made := by
    rw [← fullRecord_indexed h.indexed_pprev (h.indexed_pprev.insert hfresh)]
    exact h.made

end Insert

theorem BlockTree.add_eq_ok {nFile nBlockPos : UInt32}
    (h : tree.add params mapProofOfStake b nFile nBlockPos = .ok tree') :
    params.crypto.blockHash b ∉ tree ∧ ∃ r,
      fullRecord params mapProofOfStake tree.lookup ((tree.lookup b.hashPrevBlock).getD []) b nFile
        nBlockPos = .ok r ∧
      tree' = tree.insert (params.crypto.blockHash b) (r :: (tree.lookup b.hashPrevBlock).getD []) := by
  obtain ⟨hfresh, h⟩ := require_bind_eq_ok.mp h
  obtain ⟨r, hr, h⟩ := bind_eq_ok.mp h
  cases h
  exact ⟨of_decide_eq_true hfresh, r, hr, rfl⟩

theorem TreeOk.indexed (h : TreeOk params mapProofOfStake blocks tree) (hash : Uint256) :
    IndexedChain tree.lookup ((tree.lookup hash).getD []) := by
  cases hfind : tree.lookup hash with
  | none =>
    rintro pindex pprev hs
    cases suffix_nil.mp hs
  | some chain =>
    obtain ⟨b, r, pprev, rfl, -, hr⟩ := h hash chain hfind
    exact hr.indexed

/-- One arrival. -/
theorem TreeOk.add (h : TreeOk params mapProofOfStake blocks tree) (hb : b ∈ blocks)
    {nFile nBlockPos : UInt32}
    (hadd : tree.add params mapProofOfStake b nFile nBlockPos = .ok tree') :
    TreeOk params mapProofOfStake blocks tree' := by
  obtain ⟨hfresh, r, hr, rfl⟩ := BlockTree.add_eq_ok hadd
  obtain ⟨hrecord, hnew⟩ := fullRecord_eq_ok hr
  have hfile : r.nFile = nFile := (congrArg (·.nFile) hnew :)
  have hpos : r.nBlockPos = nBlockPos := (congrArg (·.nBlockPos) hnew :)
  have hindexed := h.indexed b.hashPrevBlock
  intro hash chain hfind
  by_cases hhash : hash = params.crypto.blockHash b
  · subst hhash
    rw [AList.lookup_insert, Option.some.injEq] at hfind
    subst hfind
    refine ⟨b, r, _, rfl, rfl, hb, ?_, ?_, ?_⟩
    · -- the new record is found under its hash, and its ancestors are as before
      intro pindex pprev hs
      rcases suffix_cons_iff.mp hs with heq | hs
      · rw [cons.injEq] at heq
        rw [heq.1, heq.2, hrecord.hashBlock]
        exact AList.lookup_insert tree
      · exact hindexed.insert hfresh pindex pprev hs
    · cases hparent : tree.lookup b.hashPrevBlock with
      | none => exact .inl rfl
      | some pprev => exact .inr (lookup_insert_of_some hfresh hparent)
    · rw [← fullRecord_indexed hindexed (hindexed.insert hfresh), hfile, hpos]
      exact hr
  · rw [AList.lookup_insert_ne hhash] at hfind
    obtain ⟨b', r', pprev', hchain, hhash', hr'⟩ := h hash chain hfind
    exact ⟨b', r', pprev', hchain, hhash', hr'.insert hfresh⟩

theorem treeOk_addAll {arrivals : List Arrival} (harrivals : ∀ a ∈ arrivals, a.b ∈ blocks)
    (h : TreeOk params mapProofOfStake blocks tree) :
    TreeOk params mapProofOfStake blocks (tree.addAll params mapProofOfStake arrivals) := by
  induction arrivals generalizing tree with
  | nil => exact h
  | cons a arrivals ih =>
    rw [forall_mem_cons] at harrivals
    refine ih harrivals.2 ?_
    show TreeOk params mapProofOfStake blocks
      ((tree.add params mapProofOfStake a.b a.nFile a.nBlockPos).toOption.getD tree)
    cases hadd : tree.add params mapProofOfStake a.b a.nFile a.nBlockPos with
    | error e => exact h
    | ok tree' => exact h.add harrivals.1 hadd

theorem treeOk_empty : TreeOk params mapProofOfStake blocks ∅ := by
  intro hash chain hfind
  cases hfind

/-! ### Two orders -/

theorem TreeRecord.pprev_eq_nil_iff (hblocks : BlockSet params blocks)
    (h : TreeOk params mapProofOfStake blocks tree)
    (hr : TreeRecord params mapProofOfStake blocks tree b r pprev) :
    pprev = [] ↔ params.crypto.blockHash b = params.hashGenesisBlock := by
  constructor
  · rintro rfl
    rw [← hr.recordOf.hashBlock]
    exact hr.recordOf.genesis
  · intro hgenesis
    rcases hr.parent with hnil | hparent
    · exact hnil
    · rw [hblocks.genesis b hr.mem hgenesis] at hparent
      obtain ⟨b', r', pprev', -, hzero, hr'⟩ := h 0 pprev hparent
      exact absurd hzero (hblocks.ne_zero b' hr'.mem)

section TwoTrees

variable (hblocks : BlockSet params blocks) (h : TreeOk params mapProofOfStake blocks tree)
  (h' : TreeOk params mapProofOfStake' blocks tree')
include hblocks h h'

/-- What passes from the ancestors of a block to the block holds of the records of a block in two
trees: both go back to the genesis block. -/
theorem related_chains {R : PFullIndex → PFullIndex → Prop} (hnil : R [] [])
    (hcons : ∀ b r r' pprev pprev', TreeRecord params mapProofOfStake blocks tree b r pprev →
      TreeRecord params mapProofOfStake' blocks tree' b r' pprev' → R pprev pprev' →
      R (r :: pprev) (r' :: pprev')) :
    ∀ (chain chain' : PFullIndex) (hash : Uint256), tree.lookup hash = some chain →
      tree'.lookup hash = some chain' → R chain chain' := by
  intro chain
  induction chain with
  | nil =>
    intro chain' hash hfind
    obtain ⟨b, r, pprev, hchain, -⟩ := h hash [] hfind
    cases hchain
  | cons r pprev ih =>
    intro chain' hash hfind hfind'
    obtain ⟨b, r₁, pprev₁, hchain, rfl, hr⟩ := h hash _ hfind
    obtain ⟨rfl, rfl⟩ := cons.inj hchain
    obtain ⟨b', r', pprev', rfl, hhash, hr'⟩ := h' _ _ hfind'
    obtain rfl := hblocks.inj hr'.mem hr.mem hhash
    refine hcons b' r r' pprev pprev' hr hr' ?_
    rcases hr.parent with hpprev | hparent
    · rwa [hpprev, (hr'.pprev_eq_nil_iff hblocks h').mpr ((hr.pprev_eq_nil_iff hblocks h).mp hpprev)]
    · rcases hr'.parent with hpprev' | hparent'
      · rwa [hpprev', (hr.pprev_eq_nil_iff hblocks h).mpr ((hr'.pprev_eq_nil_iff hblocks h').mp hpprev')]
      · exact ih pprev' b'.hashPrevBlock hparent hparent'

/-- Hash, height, chain trust, type, time and target of a block and its ancestors are the same in every
tree, whatever proof hashes were recorded. -/
theorem same_pindex (chain chain' : PFullIndex) (hash : Uint256) (hfind : tree.lookup hash = some chain)
    (hfind' : tree'.lookup hash = some chain') :
    chain.pindex.map CBlockIndex.core = chain'.pindex.map CBlockIndex.core := by
  refine related_chains hblocks h h' (R := fun chain chain' : PFullIndex =>
    chain.pindex.map CBlockIndex.core = chain'.pindex.map CBlockIndex.core) rfl ?_ chain chain' hash
    hfind hfind'
  intro b r r' pprev pprev' hr hr' hpprev
  have hhead : r.toCBlockIndex.core = r'.toCBlockIndex.core := by
    rw [(fullRecord_eq_ok hr.made).2, (fullRecord_eq_ok hr'.made).2, ← newBlockIndex_core,
      ← newBlockIndex_core, hpprev]
  exact congrArg₂ cons hhead hpprev

/-- A block has the same record in every tree, up to its place on disk and its amounts, if the same
proof hashes were recorded for it and its ancestors. -/
theorem same_core (chain chain' : PFullIndex) (hash : Uint256) (hfind : tree.lookup hash = some chain)
    (hfind' : tree'.lookup hash = some chain')
    (hproofs : ∀ i ∈ chain, i.fProofOfStake → mapProofOfStake i.hashBlock = mapProofOfStake' i.hashBlock) :
    chain.map FullIndex.core = chain'.map FullIndex.core := by
  refine related_chains hblocks h h' (R := fun chain chain' : PFullIndex =>
    (∀ i ∈ chain, i.fProofOfStake → mapProofOfStake i.hashBlock = mapProofOfStake' i.hashBlock) →
      chain.map FullIndex.core = chain'.map FullIndex.core) (fun _ => rfl) ?_ chain chain' hash
    hfind hfind' hproofs
  intro b r r' pprev pprev' hr hr' ih hproofs
  rw [forall_mem_cons] at hproofs
  rw [hr.recordOf.fProofOfStake, hr.recordOf.hashBlock] at hproofs
  rw [map_cons, map_cons, ih hproofs.2, fullRecord_congr hr.indexed_pprev hr'.indexed_pprev
    (ih hproofs.2) hproofs.1 hr.made hr'.made]

end TwoTrees

end Tree

end NovaCoin
