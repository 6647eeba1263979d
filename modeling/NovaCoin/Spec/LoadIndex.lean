import NovaCoin.Spec.BlockTree

/-!
# A block index that is loaded again

The database has an entry for each record of the tree, with neither `nChainTrust` nor the checksum.
`LoadBlockIndex` reads the entries in the order of their keys, which may put a block before its
parent, and then goes through the records by height. When it gets to a record those of the ancestors
are complete, so what it computes is what `AddToBlockIndex` had computed (`loaded_core`).
-/

namespace NovaCoin

open Guard List Option

variable {params : ChainParams} {mapProofOfStake : Uint256 → Option Uint256} {blocks : Set CBlock}
  {tree : BlockTree}

/-! ## What is stored -/

/-- A record without what is computed when it is loaded. -/
def FullIndex.stored (r : FullIndex) : FullIndex :=
  { r.core with nChainTrust := 0, nStakeModifierChecksum := 0 }

/-- An entry for the record `r`, whose amounts and successor may have been set since. -/
def StoredAs (params : ChainParams) (tree : BlockTree) (r : FullIndex) (pprev : PFullIndex)
    (d : CDiskBlockIndex) : Prop :=
  ∃ r' : FullIndex, ∃ pnext : Option Uint256, r'.core = r.core ∧ (∀ hash ∈ pnext, hash ∈ tree) ∧
    d = .new params.crypto r' pprev pnext

structure Stores (params : ChainParams) (tree : BlockTree) (entries : List CDiskBlockIndex) : Prop where
  sound : ∀ d ∈ entries, ∃ hash r pprev, tree.lookup hash = some (r :: pprev) ∧
    StoredAs params tree r pprev d
  complete : ∀ hash r pprev, tree.lookup hash = some (r :: pprev) →
    ∃ d ∈ entries, StoredAs params tree r pprev d

/-- What `AddToBlockIndex` has written for the blocks, before any of them has a successor. -/
def BlockTree.diskEntries (crypto : Crypto) (tree : BlockTree) : List CDiskBlockIndex :=
  tree.entries.filterMap fun entry =>
    entry.2.head?.map fun r => .new crypto r entry.2.tail none

theorem stores_diskEntries (params : ChainParams) (tree : BlockTree) :
    Stores params tree (tree.diskEntries params.crypto) := by
  have hstored : ∀ r pprev, StoredAs params tree r pprev (.new params.crypto r pprev none) :=
    fun r pprev => ⟨r, none, rfl, nofun, rfl⟩
  constructor
  · intro d hd
    obtain ⟨⟨hash, chain⟩, hentry, hd⟩ := mem_filterMap.mp hd
    obtain ⟨r, hr, rfl⟩ := map_eq_some_iff.mp hd
    obtain ⟨pprev, rfl⟩ := head?_eq_some_iff.mp hr
    exact ⟨hash, r, pprev, AList.mem_lookup_iff.mpr hentry, hstored r pprev⟩
  · intro hash r pprev hfind
    exact ⟨_, mem_filterMap.mpr ⟨⟨hash, r :: pprev⟩, AList.mem_lookup_iff.mp hfind, rfl⟩,
      hstored r pprev⟩

variable {hash hash' : Uint256} {r r' : FullIndex} {pprev : PFullIndex} {d : CDiskBlockIndex}
  {mapBlockIndex : LoadedMap} {done read : List Uint256} {b : CBlock} {l : LoadedIndex}
  {crypto : Crypto} {entries : List CDiskBlockIndex}

theorem TreeOk.record (h : TreeOk params mapProofOfStake blocks tree)
    (hfind : tree.lookup hash = some (r :: pprev)) :
    ∃ b, params.crypto.blockHash b = hash ∧ r.hashBlock = hash ∧
      TreeRecord params mapProofOfStake blocks tree b r pprev := by
  obtain ⟨b, r₁, pprev₁, hchain, rfl, hr⟩ := h hash _ hfind
  obtain ⟨rfl, rfl⟩ := cons.inj hchain
  exact ⟨b, rfl, hr.recordOf.hashBlock, hr⟩

section

variable (hblocks : BlockSet params blocks) (h : TreeOk params mapProofOfStake blocks tree)
include hblocks h

theorem TreeOk.hash_ne_zero (hmem : hash ∈ tree) : hash ≠ 0 := by
  obtain ⟨chain, hfind⟩ := isSome_iff_exists.mp (AList.lookup_isSome.mpr hmem)
  obtain ⟨b, r, pprev, -, rfl, hr⟩ := h hash chain hfind
  exact hblocks.ne_zero b hr.mem

/-- `hashPrev` of an entry is the `hashPrevBlock` of the block. -/
theorem TreeRecord.hashPrev (hr : TreeRecord params mapProofOfStake blocks tree b r pprev) :
    (pprev.head?.map (·.hashBlock)).getD 0 = b.hashPrevBlock := by
  rcases hr.parent with hnil | hparent
  · have hgenesis := (hr.pprev_eq_nil_iff hblocks h).mp hnil
    rw [hnil, hblocks.genesis b hr.mem hgenesis]
    rfl
  · obtain ⟨b', r', pprev', rfl, hhash, hr'⟩ := h _ _ hparent
    exact hr'.recordOf.hashBlock.trans hhash

theorem StoredAs.getBlockHash (hfind : tree.lookup hash = some (r :: pprev))
    (hd : StoredAs params tree r pprev d) (fUseFastIndex : Bool) (nAdjustedTime : Int) :
    d.getBlockHash params.crypto fUseFastIndex nAdjustedTime = hash := by
  obtain ⟨r', pnext, hcore, -, rfl⟩ := hd
  obtain ⟨b, hhash, -, hr⟩ := h.record hfind
  have hrecord := hr.recordOf
  have hheader : (CDiskBlockIndex.new params.crypto r' pprev pnext).header =
      { b with vtx := [], vchBlockSig := [] } := by
    have hversion : r'.nVersion = r.nVersion := (congrArg (·.nVersion) hcore :)
    have hroot : r'.hashMerkleRoot = r.hashMerkleRoot := (congrArg (·.hashMerkleRoot) hcore :)
    have htime : r'.nTime = r.nTime := (congrArg (·.nTime) hcore :)
    have hbits : r'.nBits = r.nBits := (congrArg (·.nBits) hcore :)
    have hnonce : r'.nNonce = r.nNonce := (congrArg (·.nNonce) hcore :)
    simp only [CDiskBlockIndex.header, CDiskBlockIndex.new, hr.hashPrev hblocks h, hversion, hroot, htime,
      hbits, hnonce, hrecord.nVersion, hrecord.hashMerkleRoot, hrecord.nTime, hrecord.nBits,
      hrecord.nNonce]
  have hcomputed : params.crypto.blockHash (CDiskBlockIndex.new params.crypto r' pprev pnext).header =
      hash := by
    rw [hheader]
    exact hhash
  rw [CDiskBlockIndex.getBlockHash]
  split
  · exact hcomputed
  · exact hcomputed

end

/-! ## Reading -/

/-- A loaded record has what is stored of `r`, and the pointer to its parent. -/
structure LoadedAs (r : FullIndex) (pprev : PFullIndex) (l : LoadedIndex) : Prop where
  stored : l.record.stored = r.stored
  pprev : l.pprev = pprev.head?.map (·.hashBlock)

/-- While the entries are read, the records have hashes of the tree, and those read are complete. -/
structure Reading (tree : BlockTree) (read : List Uint256) (mapBlockIndex : LoadedMap) : Prop where
  mem : ∀ hash ∈ mapBlockIndex, hash ∈ tree
  loaded : ∀ hash ∈ read, ∀ r pprev, tree.lookup hash = some (r :: pprev) →
    ∃ l, mapBlockIndex.lookup hash = some l ∧ LoadedAs r pprev l

def pointer (hash : Uint256) : Option Uint256 := if hash = 0 then none else some hash

theorem insertBlockIndex_pointer (mapBlockIndex : LoadedMap) (hash : Uint256) :
    (insertBlockIndex mapBlockIndex hash).2 = pointer hash := by
  unfold insertBlockIndex pointer
  split
  · rfl
  · split <;> rfl

theorem lookup_insertBlockIndex (h : mapBlockIndex.lookup hash' = some l) :
    (insertBlockIndex mapBlockIndex hash).1.lookup hash' = some l := by
  unfold insertBlockIndex
  split
  · exact h
  · split
    · exact h
    · next hfresh =>
      have hne : hash' ≠ hash := by
        rintro rfl
        rw [AList.lookup_eq_none.mpr hfresh] at h
        cases h
      exact (AList.lookup_insert_ne hne).trans h

theorem mem_of_mem_insertBlockIndex (h : hash' ∈ (insertBlockIndex mapBlockIndex hash).1) :
    hash' ∈ mapBlockIndex ∨ hash ≠ 0 ∧ hash' = hash := by
  unfold insertBlockIndex at h
  split at h
  · exact .inl h
  · next hzero =>
    split at h
    · exact .inl h
    · exact ((AList.mem_insert _).mp h).symm.imp_right fun he => ⟨hzero, he⟩

/-- A pointer to a block of the tree, or null. -/
theorem Reading.insertBlockIndex (h : Reading tree read mapBlockIndex)
    (hhash : hash ≠ 0 → hash ∈ tree) :
    Reading tree read (NovaCoin.insertBlockIndex mapBlockIndex hash).1 where
  mem hash' hmem := by
    rcases mem_of_mem_insertBlockIndex hmem with hold | ⟨hzero, rfl⟩
    · exact h.mem hash' hold
    · exact hhash hzero
  loaded hash' hread r pprev hfind := by
    obtain ⟨l, hl, hloaded⟩ := h.loaded hash' hread r pprev hfind
    exact ⟨l, lookup_insertBlockIndex hl, hloaded⟩

theorem stored_record_new {pnext : Option Uint256} (hcore : r'.core = r.core)
    (hnoProof : r.fProofOfStake = false → r.hashProofOfStake = 0) :
    ((CDiskBlockIndex.new crypto r' pprev pnext).record r.hashBlock).stored = r.stored := by
  have hstored : r'.stored = r.stored :=
    congrArg (fun c : FullIndex => { c with nChainTrust := 0, nStakeModifierChecksum := 0 }) hcore
  have hhash : r'.hashBlock = r.hashBlock := (congrArg (·.hashBlock) hcore :)
  have hstake : r'.fProofOfStake = r.fProofOfStake := (congrArg (·.fProofOfStake) hcore :)
  have hproof : r'.hashProofOfStake = r.hashProofOfStake := (congrArg (·.hashProofOfStake) hcore :)
  rw [← hstored, ← hhash]
  rw [← hproof, ← hstake] at hnoProof
  have hwritten : (if r'.isProofOfStake then r'.hashProofOfStake else 0) = r'.hashProofOfStake := by
    show (if r'.fProofOfStake then _ else _) = _
    split
    · rfl
    · next hwork => exact (hnoProof (by simpa using hwork)).symm
  simp only [FullIndex.stored, FullIndex.core, CDiskBlockIndex.record, CDiskBlockIndex.new, hwritten,
    ← r'.flag]

theorem loadEntry_eq {fUseFastIndex : Bool} {nAdjustedTime : Int}
    (hkey : d.getBlockHash crypto fUseFastIndex nAdjustedTime = hash) (hzero : hash ≠ 0)
    (mapBlockIndex : LoadedMap) :
    loadEntry crypto fUseFastIndex nAdjustedTime mapBlockIndex d =
      .ok ((insertBlockIndex (insertBlockIndex (insertBlockIndex mapBlockIndex hash).1 d.hashPrev).1
        d.hashNext).1.insert hash ⟨d.record hash, pointer d.hashPrev, pointer d.hashNext⟩) := by
  have hpointer : pointer hash = some hash := if_neg hzero
  unfold loadEntry
  simp only [hkey, insertBlockIndex_pointer, hpointer]
  rfl

theorem Reading.insert (h : Reading tree read mapBlockIndex)
    (hfind : tree.lookup hash = some (r :: pprev)) (hl : LoadedAs r pprev l) :
    Reading tree (hash :: read) (mapBlockIndex.insert hash l) where
  mem hash' hmem := by
    rcases (AList.mem_insert _).mp hmem with rfl | hold
    · exact AList.lookup_isSome.mp (by rw [hfind]; rfl)
    · exact h.mem hash' hold
  loaded hash' hread r' pprev' hfind' := by
    by_cases hsame : hash' = hash
    · subst hsame
      rw [hfind, some.injEq] at hfind'
      obtain ⟨rfl, rfl⟩ := hfind'
      exact ⟨l, AList.lookup_insert _, hl⟩
    · rw [AList.lookup_insert_ne hsame]
      exact h.loaded hash' (mem_of_ne_of_mem hsame hread) r' pprev' hfind'

section

variable (fUseFastIndex : Bool) (nAdjustedTime : Int) (hblocks : BlockSet params blocks)
  (htree : TreeOk params mapProofOfStake blocks tree)
include hblocks htree

theorem Reading.loadEntry (h : Reading tree read mapBlockIndex)
    (hfind : tree.lookup hash = some (r :: pprev)) (hd : StoredAs params tree r pprev d) :
    ∃ mapBlockIndex', loadEntry params.crypto fUseFastIndex nAdjustedTime mapBlockIndex d =
      .ok mapBlockIndex' ∧ Reading tree (hash :: read) mapBlockIndex' := by
  have hmem : hash ∈ tree := AList.lookup_isSome.mp (by rw [hfind]; rfl)
  have hzero := htree.hash_ne_zero hblocks hmem
  have hkey := hd.getBlockHash hblocks htree hfind fUseFastIndex nAdjustedTime
  obtain ⟨b, -, rfl, hr⟩ := htree.record hfind
  obtain ⟨r', pnext, hcore, hpnext, rfl⟩ := hd
  -- the pointers of the entry lead to blocks of the tree
  have hprev : pointer ((pprev.head?.map (·.hashBlock)).getD 0) = pprev.head?.map (·.hashBlock) ∧
      ((pprev.head?.map (·.hashBlock)).getD 0 ≠ 0 →
        (pprev.head?.map (·.hashBlock)).getD 0 ∈ tree) := by
    cases pprev with
    | nil => exact ⟨rfl, fun hne => absurd rfl hne⟩
    | cons prev rest =>
      have hparent : prev.hashBlock ∈ tree := by
        have hindexed := hr.indexed_pprev prev rest suffix_rfl
        exact AList.lookup_isSome.mp (isSome_iff_exists.mpr ⟨_, hindexed⟩)
      exact ⟨if_neg (htree.hash_ne_zero hblocks hparent), fun _ => hparent⟩
  have hnext : pnext.getD 0 ≠ 0 → pnext.getD 0 ∈ tree := by
    cases pnext with
    | none => exact fun hne => absurd rfl hne
    | some hash => exact fun _ => hpnext hash rfl
  refine ⟨_, loadEntry_eq hkey hzero mapBlockIndex, ?_⟩
  refine (((h.insertBlockIndex fun _ => hmem).insertBlockIndex hprev.2).insertBlockIndex
    hnext).insert hfind ⟨?_, hprev.1⟩
  exact stored_record_new hcore hr.recordOf.noProof

theorem reading_readBlockIndex (h : Reading tree [] mapBlockIndex)
    (hentries : ∀ d ∈ entries, ∃ hash r pprev, tree.lookup hash = some (r :: pprev) ∧
      StoredAs params tree r pprev d) :
    ∃ mapBlockIndex', foldAll (loadEntry params.crypto fUseFastIndex nAdjustedTime) mapBlockIndex
        entries = .ok mapBlockIndex' ∧
      Reading tree
        (entries.map (·.getBlockHash params.crypto fUseFastIndex nAdjustedTime)).reverse mapBlockIndex' := by
  refine exists_foldAll_done (I := fun (done : List CDiskBlockIndex) => Reading tree
    (done.map (·.getBlockHash params.crypto fUseFastIndex nAdjustedTime)).reverse) h
    fun done d rest mapBlockIndex hall h => ?_
  obtain ⟨hash, r, pprev, hfind, hd⟩ := hentries d (by simp [← hall])
  rw [map_append, reverse_append, map_singleton, hd.getBlockHash hblocks htree hfind]
  exact h.loadEntry fUseFastIndex nAdjustedTime hblocks htree hfind hd

/-! ## Computing again -/

/-- The records that are loaded, and those whose trust and checksum have been computed. -/
structure Computed (tree : BlockTree) (done : List Uint256) (mapBlockIndex : LoadedMap) : Prop where
  mem : ∀ hash, hash ∈ mapBlockIndex ↔ hash ∈ tree
  loaded : ∀ hash r pprev, tree.lookup hash = some (r :: pprev) →
    ∃ l, mapBlockIndex.lookup hash = some l ∧ LoadedAs r pprev l ∧
      (hash ∈ done → l.record.core = r.core)

/-- Reading the database gives the records of the tree. -/
theorem computed_readBlockIndex (hentries : Stores params tree entries) :
    ∃ mapBlockIndex, readBlockIndex params.crypto fUseFastIndex nAdjustedTime entries = .ok mapBlockIndex ∧
      Computed tree [] mapBlockIndex := by
  have hempty : Reading tree [] ∅ :=
    ⟨fun hash hmem => absurd hmem (AList.notMem_empty hash), fun _ hread => absurd hread not_mem_nil⟩
  obtain ⟨map, hfold, h⟩ := reading_readBlockIndex fUseFastIndex nAdjustedTime hblocks htree hempty
    hentries.sound
  have hread : ∀ hash r pprev, tree.lookup hash = some (r :: pprev) →
      hash ∈ (entries.map (·.getBlockHash params.crypto fUseFastIndex nAdjustedTime)).reverse := by
    intro hash r pprev hfind
    obtain ⟨d, hd, hstored⟩ := hentries.complete hash r pprev hfind
    rw [← hstored.getBlockHash hblocks htree hfind fUseFastIndex nAdjustedTime, mem_reverse]
    exact mem_map_of_mem hd
  refine ⟨map, hfold, fun hash => ⟨h.mem hash, fun hmem => ?_⟩, fun hash r pprev hfind => ?_⟩
  · obtain ⟨chain, hfind⟩ := isSome_iff_exists.mp (AList.lookup_isSome.mpr hmem)
    obtain ⟨b, r, pprev, rfl, -, -⟩ := htree hash chain hfind
    obtain ⟨l, hl, -⟩ := h.loaded hash (hread hash r pprev hfind) r pprev hfind
    exact AList.lookup_isSome.mp (by rw [hl]; rfl)
  · obtain ⟨l, hl, hloaded⟩ := h.loaded hash (hread hash r pprev hfind) r pprev hfind
    exact ⟨l, hl, hloaded, fun hdone => absurd hdone not_mem_nil⟩

end

theorem Computed.followPprev (h : Computed tree done mapBlockIndex) :
    ∀ (chain : PFullIndex) (n : Nat),
      IndexedChain tree.lookup chain → (∀ r ∈ chain, r.hashBlock ∈ done) → chain.length ≤ n →
      (followPprev mapBlockIndex n (chain.head?.map (·.hashBlock))).map FullIndex.core =
        chain.map FullIndex.core
  | [], n, _, _, _ => by
    cases n <;> rfl
  | r :: pprev, 0, _, _, hlen => absurd hlen (Nat.not_succ_le_zero _)
  | r :: pprev, n + 1, hindexed, hdone, hlen => by
    rw [forall_mem_cons] at hdone
    obtain ⟨l, hl, hloaded, hcore⟩ := h.loaded r.hashBlock r pprev (hindexed r pprev suffix_rfl)
    have ih := h.followPprev pprev n (hindexed.of_suffix (suffix_cons _ _)) hdone.2
      (Nat.le_of_succ_le_succ hlen)
    rw [head?_cons, map_some, followPprev_succ hl, map_cons, hcore hdone.1,
      hloaded.pprev, ih, map_cons]

theorem Computed.length_le (h : Computed tree done mapBlockIndex) {chain : PFullIndex}
    (hindexed : IndexedChain tree.lookup chain) : chain.length ≤ mapBlockIndex.keys.length := by
  have hnodup : (chain.map (·.hashBlock)).Nodup :=
    hindexed.nodup.map_on fun a ha b hb he => hindexed.hash_inj ha hb he
  have hsub : chain.map (·.hashBlock) ⊆ mapBlockIndex.keys := by
    intro hash hmem
    obtain ⟨r, hr, rfl⟩ := mem_map.mp hmem
    obtain ⟨pprev, hs⟩ := exists_suffix_of_mem hr
    have hfind := hindexed r pprev hs
    exact (h.mem _).mpr (AList.lookup_isSome.mp (isSome_iff_exists.mpr ⟨_, hfind⟩))
  have hle := (hnodup.subperm hsub).length_le
  rwa [length_map] at hle

theorem TreeOk.height_lt (h : TreeOk params mapProofOfStake blocks tree) :
    ∀ (pprev : PFullIndex) {hash : Uint256} {r : FullIndex}, tree.lookup hash = some (r :: pprev) →
      ∀ a ∈ pprev, a.nHeight < r.nHeight
  | [], _, _, _, a, ha => absurd ha not_mem_nil
  | prev :: rest, hash, r, hfind, a, ha => by
    obtain ⟨b, -, -, hr⟩ := h.record hfind
    have hheight : r.nHeight = prev.nHeight + 1 := hr.recordOf.nHeight
    rcases mem_cons.mp ha with rfl | ha
    · omega
    · have hlt := h.height_lt rest (hr.indexed_pprev prev rest suffix_rfl) a ha
      omega

theorem core_of_stored (h : r'.stored = r.stored) :
    FullIndex.core { r' with
      nChainTrust := r.nChainTrust, nStakeModifierChecksum := r.nStakeModifierChecksum } = r.core :=
  congrArg (fun s : FullIndex => { s with
    nChainTrust := r.nChainTrust, nStakeModifierChecksum := r.nStakeModifierChecksum }) h

section Ancestors

variable {pprev' : PFullIndex}

theorem pindex_core_congr (h : pprev.map FullIndex.core = pprev'.map FullIndex.core) :
    pprev.pindex.map CBlockIndex.core = pprev'.pindex.map CBlockIndex.core := by
  rw [← pindex_map_core, ← pindex_map_core, h]

theorem trust_congr (h : pprev.map FullIndex.core = pprev'.map FullIndex.core) (fProofOfStake : Bool)
    (nBits : UInt32) : chainTrust pprev.pindex + getBlockTrust fProofOfStake nBits pprev.pindex =
      chainTrust pprev'.pindex + getBlockTrust fProofOfStake nBits pprev'.pindex := by
  rw [← chainTrust_core pprev.pindex, ← getBlockTrust_core _ _ pprev.pindex, pindex_core_congr h,
    chainTrust_core, getBlockTrust_core]

theorem getStakeModifierChecksum_congr (params : ChainParams)
    (h : pprev.map FullIndex.core = pprev'.map FullIndex.core) (hashBlock : Uint256) (nFlags : UInt32)
    (hashProofOfStake : Uint256) (nStakeModifier : UInt64) :
    getStakeModifierChecksum params pprev hashBlock nFlags hashProofOfStake nStakeModifier =
      getStakeModifierChecksum params pprev' hashBlock nFlags hashProofOfStake nStakeModifier := by
  rw [← getStakeModifierChecksum_core, h, getStakeModifierChecksum_core]

end Ancestors

/-- Both values are those of the record before the restart, as those of its predecessors are. -/
theorem calculateTrust_eq_ok (hr : RecordOf params pprev b r)
    (hl : mapBlockIndex.lookup hash = some l) (hloaded : l.record.stored = r.stored)
    (hpprev : (followPprev mapBlockIndex mapBlockIndex.keys.length l.pprev).map FullIndex.core =
      pprev.map FullIndex.core) :
    calculateTrust params mapBlockIndex hash = .ok (mapBlockIndex.insert hash { l with
      record := { l.record with
        nChainTrust := r.nChainTrust, nStakeModifierChecksum := r.nStakeModifierChecksum } }) := by
  have hhash : l.record.hashBlock = r.hashBlock := (congrArg (·.hashBlock) hloaded :)
  have hflags : l.record.nFlags = r.nFlags := (congrArg (·.nFlags) hloaded :)
  have hproof : l.record.hashProofOfStake = r.hashProofOfStake :=
    (congrArg (·.hashProofOfStake) hloaded :)
  have hmodifier : l.record.nStakeModifier = r.nStakeModifier := (congrArg (·.nStakeModifier) hloaded :)
  have hheight : l.record.nHeight = r.nHeight := (congrArg (·.nHeight) hloaded :)
  have hstake : l.record.fProofOfStake = r.fProofOfStake := (congrArg (·.fProofOfStake) hloaded :)
  have hbits : l.record.nBits = r.nBits := (congrArg (·.nBits) hloaded :)
  have htrust := trust_congr hpprev l.record.fProofOfStake l.record.nBits
  rw [hstake, hbits, ← hr.nChainTrust, ← hstake, ← hbits] at htrust
  have hchecksum := getStakeModifierChecksum_congr params hpprev l.record.hashBlock l.record.nFlags
    l.record.hashProofOfStake l.record.nStakeModifier
  rw [hhash, hflags, hproof, hmodifier, hr.checksum, ← hhash, ← hflags, ← hproof, ← hmodifier] at hchecksum
  have hcheckpoint := hr.checkpoint
  rw [← hheight] at hcheckpoint
  rw [← htrust]
  exact bind_eq_ok.mpr ⟨l, getOr_eq_ok.mpr hl, bind_eq_ok.mpr ⟨_, getOr_eq_ok.mpr hchecksum,
    require_bind_eq_ok.mpr ⟨hcheckpoint, rfl⟩⟩⟩

/-- One record: its ancestors are done, so both values are those from before. -/
theorem Computed.calculateTrust (htree : TreeOk params mapProofOfStake blocks tree)
    (h : Computed tree done mapBlockIndex) (hfind : tree.lookup hash = some (r :: pprev))
    (hdone : ∀ a ∈ pprev, a.hashBlock ∈ done) :
    ∃ mapBlockIndex', calculateTrust params mapBlockIndex hash = .ok mapBlockIndex' ∧
      Computed tree (done ++ [hash]) mapBlockIndex' := by
  obtain ⟨b, -, -, hr⟩ := htree.record hfind
  obtain ⟨l, hl, hloaded, -⟩ := h.loaded hash r pprev hfind
  have hpprev := h.followPprev pprev _ hr.indexed_pprev hdone (h.length_le hr.indexed_pprev)
  rw [← hloaded.pprev] at hpprev
  refine ⟨_, calculateTrust_eq_ok hr.recordOf hl hloaded.stored hpprev, ?_, ?_⟩
  · intro hash'
    rw [AList.mem_insert, h.mem]
    refine or_iff_right_of_imp ?_
    rintro rfl
    exact AList.lookup_isSome.mp (by rw [hfind]; rfl)
  · intro hash' r' pprev' hfind'
    by_cases hsame : hash' = hash
    · subst hsame
      rw [hfind, some.injEq, cons.injEq] at hfind'
      obtain ⟨rfl, rfl⟩ := hfind'
      exact ⟨_, AList.lookup_insert _, ⟨hloaded.stored, hloaded.pprev⟩,
        fun _ => core_of_stored hloaded.stored⟩
    · obtain ⟨l', hl', hloaded', hcore'⟩ := h.loaded hash' r' pprev' hfind'
      refine ⟨l', (AList.lookup_insert_ne hsame).trans hl', hloaded', fun hmem => hcore' ?_⟩
      rcases mem_append.mp hmem with hmem | hmem
      · exact hmem
      · exact absurd (mem_singleton.mp hmem) hsame

theorem done_of_height_lt (h : Computed tree [] mapBlockIndex) {rest : List Uint256}
    {pprev' : PFullIndex} (hsorted : SortedByHeight mapBlockIndex (done ++ hash :: rest))
    (hfind : tree.lookup hash = some (r :: pprev))
    (hfind' : tree.lookup hash' = some (r' :: pprev')) (hlt : r'.nHeight < r.nHeight) :
    hash' ∈ done := by
  have hmem : hash' ∈ done ++ hash :: rest :=
    hsorted.perm.mem_iff.mpr ((h.mem hash').mpr (AList.lookup_isSome.mp (by rw [hfind']; rfl)))
  rcases mem_append.mp hmem with hdone | hmem
  · exact hdone
  · exfalso
    obtain ⟨l, hl, hloaded, -⟩ := h.loaded hash r pprev hfind
    obtain ⟨l', hl', hloaded', -⟩ := h.loaded hash' r' pprev' hfind'
    have hheight : l.record.nHeight = r.nHeight := (congrArg (·.nHeight) hloaded.stored :)
    have hheight' : l'.record.nHeight = r'.nHeight := (congrArg (·.nHeight) hloaded'.stored :)
    rcases mem_cons.mp hmem with rfl | hrest
    · rw [hl, some.injEq] at hl'
      rw [← hl'] at hheight'
      omega
    · have hpair := (pairwise_cons.mp (pairwise_append.mp hsorted.sorted).2.1).1 hash' hrest l hl
        l' hl'
      omega

theorem computed_foldAll (htree : TreeOk params mapProofOfStake blocks tree) {map₀ : LoadedMap}
    (h₀ : Computed tree [] map₀) {vSortedByHeight : List Uint256}
    (hsorted : SortedByHeight map₀ vSortedByHeight) :
    ∃ mapBlockIndex', foldAll (calculateTrust params) map₀ vSortedByHeight = .ok mapBlockIndex' ∧
      Computed tree vSortedByHeight mapBlockIndex' := by
  refine exists_foldAll_done h₀ fun done hash rest mapBlockIndex hall h => ?_
  rw [← hall] at hsorted
  have hmem : hash ∈ tree :=
    (h₀.mem hash).mp (hsorted.perm.mem_iff.mp (mem_append_right _ mem_cons_self))
  obtain ⟨chain, hfind⟩ := isSome_iff_exists.mp (AList.lookup_isSome.mpr hmem)
  obtain ⟨b, r, pprev, rfl, -, hr⟩ := htree hash chain hfind
  refine h.calculateTrust htree hfind fun a ha => ?_
  obtain ⟨older, hs⟩ := exists_suffix_of_mem ha
  exact done_of_height_lt h₀ hsorted hfind (hr.indexed_pprev a older hs)
    (htree.height_lt pprev hfind a ha)

/-- The blocks can be sorted as `LoadBlockIndex` does, whatever it makes of equal heights. -/
theorem exists_sortedByHeight (mapBlockIndex : LoadedMap) :
    ∃ vSortedByHeight, SortedByHeight mapBlockIndex vSortedByHeight := by
  let heightAt (hash : Uint256) : Int := ((mapBlockIndex.lookup hash).map (·.record.nHeight)).getD 0
  let le (hash hash' : Uint256) : Bool := heightAt hash ≤ heightAt hash'
  refine ⟨mapBlockIndex.keys.mergeSort le, mergeSort_perm _ _, ?_⟩
  have hsorted : (mapBlockIndex.keys.mergeSort le).Pairwise fun hash hash' =>
      le hash hash' := by
    refine pairwise_mergeSort ?_ ?_ _
    · intro a b c hab hbc
      exact decide_eq_true (Int.le_trans (of_decide_eq_true hab) (of_decide_eq_true hbc))
    · intro a b
      rw [Bool.or_eq_true]
      exact (Int.le_total (heightAt a) (heightAt b)).imp decide_eq_true decide_eq_true
  refine hsorted.imp fun {hash hash'} hle pindex hl pindex' hl' => ?_
  have hle : heightAt hash ≤ heightAt hash' := of_decide_eq_true hle
  simp only [heightAt, mem_def.mp hl, mem_def.mp hl'] at hle
  exact hle

/-- A restart computes what `AddToBlockIndex` had computed. -/
theorem loaded_core (hblocks : BlockSet params blocks) (htree : TreeOk params mapProofOfStake blocks tree)
    (hentries : Stores params tree entries) (fUseFastIndex : Bool) (nAdjustedTime : Int) :
    ∃ mapBlockIndex, readBlockIndex params.crypto fUseFastIndex nAdjustedTime entries = .ok mapBlockIndex ∧
      ∀ vSortedByHeight, SortedByHeight mapBlockIndex vSortedByHeight →
        ∃ mapBlockIndex', foldAll (calculateTrust params) mapBlockIndex vSortedByHeight =
            .ok mapBlockIndex' ∧
          ∀ hash r pprev, tree.lookup hash = some (r :: pprev) →
            ∃ l, mapBlockIndex'.lookup hash = some l ∧ l.record.core = r.core := by
  obtain ⟨map₀, hread, h₀⟩ := computed_readBlockIndex fUseFastIndex nAdjustedTime hblocks htree hentries
  refine ⟨map₀, hread, fun vSortedByHeight hsorted => ?_⟩
  obtain ⟨map₁, hfold, h₁⟩ := computed_foldAll htree h₀ hsorted
  refine ⟨map₁, hfold, fun hash r pprev hfind => ?_⟩
  obtain ⟨l, hl, -, hcore⟩ := h₁.loaded hash r pprev hfind
  have hmem : hash ∈ map₀ := (h₀.mem hash).mpr (AList.lookup_isSome.mp (by rw [hfind]; rfl))
  exact ⟨l, hl, hcore (hsorted.perm.mem_iff.mpr hmem)⟩

end NovaCoin
