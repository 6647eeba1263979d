import NovaCoin.Properties.ChainTrust
import NovaCoin.Properties.WireFormat
import NovaCoin.TxDb

/-!
# A restart

A block index is written to the database record by record, with its pointers as hashes and without
`nChainTrust` and the checksums, and `LoadBlockIndex` builds it again from the entries.

An entry may be read before those its pointers lead to (`Restored`). What is calculated is calculated
by height, so that the records of the ancestors are complete (`Recomputed`).
-/

namespace NovaCoin

open Guard List Option
open AssocMap (lookup_insert_ite mem_of_lookup exists_lookup)
open Wire (ByteStream Reader Reads)

/-! ## The format -/

section Format

variable {σ : Type} [ByteStream σ]

theorem reads_height {n : Int} (h : -2 ^ 31 ≤ n) (h' : n < 2 ^ 31) :
    Reads (σ := σ) readHeight (leBytes 4 (Int32.ofInt n).toUInt32.toNat) n := by
  have hr := (reads_int32 (σ := σ) (Int32.ofInt n)).map Int32.toInt
  rwa [Int32.toInt_ofInt_of_le h h'] at hr

/-- What is not written for proof of work is null. -/
def DiskIndex.NoStake (d : DiskIndex) : Prop :=
  d.isProofOfStake = false →
    d.prevoutStake = COutPoint.null ∧ d.nStakeTime = 0 ∧ d.hashProofOfStake = 0

variable {d : DiskIndex}

theorem DiskIndex.reads_stake (h : d.NoStake) :
    Reads (σ := σ) (unserializeStake d.nFlags) d.serializeStake
      (d.prevoutStake, d.nStakeTime, d.hashProofOfStake) := by
  have hflag : (d.nFlags &&& BLOCK_PROOF_OF_STAKE != 0) = d.isProofOfStake := rfl
  unfold unserializeStake DiskIndex.serializeStake
  rw [hflag]
  by_cases hstake : d.isProofOfStake
  · rw [if_pos hstake, if_pos hstake]
    exact d.prevoutStake.reads.bind ((reads_uint32 d.nStakeTime).bind
      ((reads_uint256 d.hashProofOfStake).map fun hash => (d.prevoutStake, d.nStakeTime, hash)))
  · obtain ⟨hprevout, htime, hproof⟩ := h (Bool.eq_false_iff.mpr hstake)
    rw [if_neg hstake, if_neg hstake, hprevout, htime, hproof]
    exact Reads.pure _

/-- An entry is read back as it was written. -/
theorem DiskIndex.reads (h : -2 ^ 31 ≤ d.nHeight) (h' : d.nHeight < 2 ^ 31) (hstake : d.NoStake) :
    Reads (σ := σ) DiskIndex.unserialize d.serialize d := by
  unfold DiskIndex.serialize
  simp only [append_assoc]
  refine (reads_le (by decide)).bind ((reads_uint256 d.hashNext).bind ((reads_uint32 d.nFile).bind
    ((reads_uint32 d.nBlockPos).bind ((reads_height h h').bind ((reads_int64 d.nMint).bind
    ((reads_int64 d.nMoneySupply).bind ((reads_uint32 d.nFlags).bind
    ((reads_uint64 d.nStakeModifier).bind ((DiskIndex.reads_stake hstake).bind
    ((reads_int32 d.nVersion).bind ((reads_uint256 d.hashPrev).bind
    ((reads_uint256 d.hashMerkleRoot).bind ((reads_uint32 d.nTime).bind ((reads_uint32 d.nBits).bind
    ((reads_uint32 d.nNonce).bind ?_)))))))))))))))
  exact (reads_uint256 (σ := σ) d.blockHash).map fun blockHash => { d with blockHash }

end Format

theorem DiskIndex.length_serialize_lt (d : DiskIndex) : d.serialize.length < 2 ^ 32 := by
  have hstake : d.serializeStake.length ≤ 72 := by
    unfold serializeStake
    split
    · simp [COutPoint.serialize, serializeUint256]
    · exact Nat.zero_le _
  simp only [serialize, serializeUint256, length_append, length_leBytes]
  omega

/-! ## The block index in memory -/

/-- The records from a pointer down to the root. -/
inductive MemIndex.Chain (index : MemIndex) : Option Uint256 → PFullIndex → Prop
  | null : Chain index none []
  | cons {hash : Uint256} {pindex : LoadedIndex} {pprev : PFullIndex} :
      index.mapBlockIndex.lookup hash = some pindex → Chain index pindex.pprev pprev →
      Chain index (some hash) (pindex.record :: pprev)

/-- `GetBlockHeader`. -/
def LoadedIndex.header (pindex : LoadedIndex) : CBlock :=
  { nVersion := pindex.record.nVersion, hashPrevBlock := pindex.pprev.getD 0,
    hashMerkleRoot := pindex.record.hashMerkleRoot, nTime := pindex.record.nTime,
    nBits := pindex.record.nBits, nNonce := pindex.record.nNonce, vtx := [], vchBlockSig := [] }

/-- A record of the block index and its ancestors. -/
structure RecordOk (params : ChainParams) (index : MemIndex) (hash : Uint256) (pindex : LoadedIndex)
    (pprev : PFullIndex) : Prop where
  chain : index.Chain pindex.pprev pprev
  hashBlock : pindex.record.hashBlock = hash
  header : params.crypto.blockHash pindex.header = hash
  ne_zero : hash ≠ 0
  nHeight : pindex.record.nHeight = (pprev.head?.map (·.nHeight + 1)).getD 0
  nHeight_lt : pindex.record.nHeight < 2 ^ 31
  pnext : ∀ next ∈ pindex.pnext, ∃ pindexNext,
    index.mapBlockIndex.lookup next = some pindexNext ∧ pindexNext.pprev = some hash
  nChainTrust : pindex.record.nChainTrust = chainTrust pprev.pindex +
    getBlockTrust pindex.record.fProofOfStake pindex.record.nBits pprev.pindex
  /-- In particular the genesis block alone has no parent. -/
  checksum : getStakeModifierChecksum params pprev hash pindex.record.nFlags
    pindex.record.hashProofOfStake pindex.record.nStakeModifier =
      some pindex.record.nStakeModifierChecksum
  checkpoint : checkStakeModifierCheckpoints params.fTestNet pindex.record.nHeight
    pindex.record.nStakeModifierChecksum = true
  noStake : pindex.record.fProofOfStake = false →
    index.stake hash = (COutPoint.null, 0) ∧ pindex.record.hashProofOfStake = 0

/-- The block index is a tree of such records. -/
def MemIndex.Ok (params : ChainParams) (index : MemIndex) : Prop :=
  ∀ hash pindex, index.mapBlockIndex.lookup hash = some pindex →
    ∃ pprev, RecordOk params index hash pindex pprev

variable {params : ChainParams} {index : MemIndex} {pprev : PFullIndex} {hash : Uint256}
  {pindex : LoadedIndex}

section Tree

variable {ptr : Option Uint256}

theorem MemIndex.Chain.unique (h : index.Chain ptr pprev) :
    ∀ {pprev' : PFullIndex}, index.Chain ptr pprev' → pprev = pprev' := by
  induction h with
  | null =>
    intro pprev' h'
    cases h'
    rfl
  | cons hlookup _ ih =>
    intro pprev' h'
    cases h' with
    | cons hlookup' hchain' =>
      cases hlookup.symm.trans hlookup'
      rw [ih hchain']

theorem MemIndex.Chain.head_height (h : index.Ok params) (hchain : index.Chain ptr pprev) :
    (pprev.head?.map (·.nHeight + 1)).getD 0 = (pprev.length : Int) := by
  induction hchain with
  | null => rfl
  | @cons hash pindex pprev hlookup hchain ih =>
    obtain ⟨pprev', hr⟩ := h hash pindex hlookup
    obtain rfl := hchain.unique hr.chain
    show pindex.record.nHeight + 1 = _
    rw [hr.nHeight, ih, length_cons, Nat.cast_add_one]

/-- The height of a record is the number of its ancestors. -/
theorem RecordOk.nHeight_eq (h : index.Ok params)
    (hr : RecordOk params index hash pindex pprev) : pindex.record.nHeight = pprev.length :=
  hr.nHeight.trans (hr.chain.head_height h)

theorem MemIndex.Chain.exists_height (h : index.Ok params) (hchain : index.Chain ptr pprev) :
    ∀ i < pprev.length, ∃ hash pindex, index.mapBlockIndex.lookup hash = some pindex ∧
      pindex.record.nHeight = i := by
  induction hchain with
  | null => exact fun i hi => absurd hi (Nat.not_lt_zero i)
  | @cons hash pindex pprev hlookup hchain ih =>
    intro i hi
    rcases Nat.lt_succ_iff_lt_or_eq.mp hi with hlt | rfl
    · exact ih i hlt
    · obtain ⟨pprev', hr⟩ := h hash pindex hlookup
      obtain rfl := hchain.unique hr.chain
      exact ⟨hash, pindex, hlookup, hr.nHeight_eq h⟩

/-- There are no more ancestors than records: each has another height. -/
theorem MemIndex.Chain.length_le (h : index.Ok params) (hchain : index.Chain ptr pprev) :
    pprev.length ≤ index.mapBlockIndex.keys.length := by
  let heightAt (hash : Uint256) : Nat :=
    ((index.mapBlockIndex.lookup hash).map (·.record.nHeight.toNat)).getD 0
  have hsub : range pprev.length ⊆ index.mapBlockIndex.keys.map heightAt := by
    intro i hi
    obtain ⟨hash, pindex, hlookup, hheight⟩ := hchain.exists_height h i (mem_range.mp hi)
    refine mem_map.mpr ⟨hash, AList.mem_keys.mp (mem_of_lookup hlookup), ?_⟩
    simp only [heightAt, hlookup, map_some, getD_some, hheight, Int.toNat_natCast]
  have hle := (nodup_range.subperm hsub).length_le
  rwa [length_range, length_map] at hle

theorem MemIndex.Chain.followPprev (hchain : index.Chain ptr pprev) :
    ∀ {n : Nat}, pprev.length ≤ n → followPprev index.mapBlockIndex n ptr = pprev := by
  induction hchain with
  | null =>
    intro n _
    cases n <;> rfl
  | cons hlookup _ ih =>
    intro n hn
    cases n with
    | zero => exact absurd hn (Nat.not_succ_le_zero _)
    | succ n => rw [followPprev_succ hlookup, ih (Nat.le_of_succ_le_succ hn)]

theorem MemIndex.Chain.head_hash (h : index.Ok params) (hchain : index.Chain ptr pprev) :
    pprev.head?.map (·.hashBlock) = ptr := by
  cases hchain with
  | null => rfl
  | cons hlookup _ =>
    obtain ⟨_, hr⟩ := h _ _ hlookup
    exact congrArg some hr.hashBlock

theorem RecordOk.ancestors (h : index.Ok params)
    (hr : RecordOk params index hash pindex pprev) : index.ancestors pindex = pprev :=
  hr.chain.followPprev (hr.chain.length_le h)

end Tree

/-! ## The entry of a record -/

/-- A record as it is when its entry has been read. -/
def LoadedIndex.onDisk (pindex : LoadedIndex) : LoadedIndex :=
  { pindex with record := { pindex.record with nChainTrust := 0, nStakeModifierChecksum := 0 } }

section Entry

variable (h : index.Ok params) (hr : RecordOk params index hash pindex pprev)

include h hr

theorem RecordOk.hashPrev_new :
    (DiskIndex.new params.crypto index hash pindex).hashPrev = pindex.pprev.getD 0 := by
  show ((index.ancestors pindex).head?.map (·.hashBlock)).getD 0 = _
  rw [hr.ancestors h, hr.chain.head_hash h]

theorem RecordOk.header_new :
    (DiskIndex.new params.crypto index hash pindex).header = pindex.header := by
  rw [CDiskBlockIndex.header, hr.hashPrev_new h]
  rfl

theorem RecordOk.blockHash_new :
    (DiskIndex.new params.crypto index hash pindex).blockHash = hash := by
  show params.crypto.blockHash (DiskIndex.new params.crypto index hash pindex).header = hash
  rw [hr.header_new h, hr.header]

/-- The hash of an entry, computed or read. -/
theorem RecordOk.getBlockHash_new (fUseFastIndex : Bool) (nAdjustedTime : Int) :
    (DiskIndex.new params.crypto index hash pindex).getBlockHash params.crypto fUseFastIndex
      nAdjustedTime = hash := by
  rw [CDiskBlockIndex.getBlockHash]
  split
  · exact hr.blockHash_new h
  · rw [hr.header_new h, hr.header]

omit h in
theorem RecordOk.noStake_new : (DiskIndex.new params.crypto index hash pindex).NoStake := by
  intro hwork
  have hwork : pindex.record.fProofOfStake = false := pindex.record.flag.trans hwork
  obtain ⟨hstake, -⟩ := hr.noStake hwork
  refine ⟨congrArg Prod.fst hstake, congrArg Prod.snd hstake, ?_⟩
  show (if pindex.record.fProofOfStake = true then _ else _) = _
  rw [hwork]
  rfl

omit h in
theorem RecordOk.record_new :
    (DiskIndex.new params.crypto index hash pindex).record hash = pindex.onDisk.record := by
  have hproof : (if pindex.record.isProofOfStake then pindex.record.hashProofOfStake else 0) =
      pindex.record.hashProofOfStake := by
    show (if pindex.record.fProofOfStake = true then _ else _) = _
    cases hwork : pindex.record.fProofOfStake with
    | true => rfl
    | false => exact (hr.noStake hwork).2.symm
  simp only [CDiskBlockIndex.record, DiskIndex.new, CDiskBlockIndex.new, LoadedIndex.onDisk, hproof,
    ← pindex.record.flag, hr.hashBlock.symm]

theorem RecordOk.pointers_new :
    (pointer (DiskIndex.new params.crypto index hash pindex).hashPrev = pindex.pprev ∧
      pointer (DiskIndex.new params.crypto index hash pindex).hashNext = pindex.pnext) ∧
    (∀ hash' ∈ pindex.pprev, hash' ∈ index.mapBlockIndex) ∧
      ∀ hash' ∈ pindex.pnext, hash' ∈ index.mapBlockIndex := by
  have hpointer : ∀ ptr : Option Uint256, (∀ hash' ∈ ptr, hash' ∈ index.mapBlockIndex) →
      pointer (ptr.getD 0) = ptr := by
    intro ptr hptr
    cases ptr with
    | none => rfl
    | some hash' =>
      obtain ⟨pindex', hlookup'⟩ := exists_lookup (hptr hash' rfl)
      obtain ⟨_, hr'⟩ := h hash' pindex' hlookup'
      exact if_neg hr'.ne_zero
  have hprev : ∀ hash' ∈ pindex.pprev, hash' ∈ index.mapBlockIndex := by
    intro hash' hmem
    have hchain := hr.chain
    rw [mem_def.mp hmem] at hchain
    cases hchain with
    | cons hlookup' _ => exact mem_of_lookup hlookup'
  have hnext : ∀ hash' ∈ pindex.pnext, hash' ∈ index.mapBlockIndex := by
    intro hash' hmem
    obtain ⟨pindexNext, hlookup', -⟩ := hr.pnext hash' hmem
    exact mem_of_lookup hlookup'
  refine ⟨⟨?_, hpointer pindex.pnext hnext⟩, hprev, hnext⟩
  rw [hr.hashPrev_new h]
  exact hpointer pindex.pprev hprev

end Entry

/-! ## Reading the entries -/

/-- Every record there is one of the index, and those whose entries were read are complete up to
what is calculated. -/
structure Restored (index : MemIndex) (read : List Uint256) (s : LoadState) : Prop where
  mem : ∀ hash ∈ s.mapBlockIndex, hash ∈ index.mapBlockIndex
  record : ∀ hash ∈ read, ∀ pindex, index.mapBlockIndex.lookup hash = some pindex →
    s.mapBlockIndex.lookup hash = some pindex.onDisk
  stake : ∀ hash ∈ read, s.stake hash = index.stake hash
  seen : ∀ stake, stake ∈ s.setStakeSeen ↔ ∃ hash ∈ read, ∃ pindex,
    index.mapBlockIndex.lookup hash = some pindex ∧ pindex.record.fProofOfStake = true ∧
      index.stake hash = stake

theorem restored_empty (index : MemIndex) : Restored index [] .empty where
  mem hash hmem := absurd hmem (AList.notMem_empty hash)
  record _ hread := absurd hread not_mem_nil
  stake _ hread := absurd hread not_mem_nil
  seen stake := ⟨fun hmem => absurd hmem (Finset.notMem_empty stake),
    fun ⟨_, hread, _⟩ => absurd hread not_mem_nil⟩

section Reading

variable {read : List Uint256} {s : LoadState}

theorem insertBlockIndex_subset {mapBlockIndex : LoadedMap}
    (hsub : ∀ hash ∈ mapBlockIndex, hash ∈ index.mapBlockIndex)
    (hhash : hash ≠ 0 → hash ∈ index.mapBlockIndex) :
    ∀ hash' ∈ (insertBlockIndex mapBlockIndex hash).1, hash' ∈ index.mapBlockIndex := by
  intro hash' hmem
  rcases mem_of_mem_insertBlockIndex hmem with hold | ⟨hzero, rfl⟩
  · exact hsub hash' hold
  · exact hhash hzero

section

variable (h : index.Ok params) (hs : Restored index read s)
  (hlookup : index.mapBlockIndex.lookup hash = some pindex) (fUseFastIndex : Bool)
  (nAdjustedTime : Int)
include h hs hlookup

/-- The map after an entry. -/
theorem Restored.loadEntry :
    ∃ mapBlockIndex, loadEntry params.crypto fUseFastIndex nAdjustedTime s.mapBlockIndex
        (DiskIndex.new params.crypto index hash pindex).toCDiskBlockIndex = .ok mapBlockIndex ∧
      (∀ hash ∈ mapBlockIndex, hash ∈ index.mapBlockIndex) ∧
      mapBlockIndex.lookup hash = some pindex.onDisk ∧
      ∀ hash' l, hash' ≠ hash → s.mapBlockIndex.lookup hash' = some l →
        mapBlockIndex.lookup hash' = some l := by
  obtain ⟨pprev, hr⟩ := h hash pindex hlookup
  obtain ⟨⟨hprev, hnext⟩, hprevMem, hnextMem⟩ := hr.pointers_new h
  have hmem := mem_of_lookup hlookup
  -- a hash that is not 0 is that of the pointer
  have hpointer : ∀ hash' : Uint256, hash' ≠ 0 → hash' ∈ pointer hash' :=
    fun hash' hne => mem_def.mpr (if_neg hne)
  refine ⟨_, loadEntry_eq (hr.getBlockHash_new h fUseFastIndex nAdjustedTime) hr.ne_zero _, ?_, ?_, ?_⟩
  · intro hash' hmem'
    rcases (AList.mem_insert _).mp hmem' with rfl | hmem'
    · exact hmem
    · refine insertBlockIndex_subset (insertBlockIndex_subset (insertBlockIndex_subset hs.mem
        fun _ => hmem) fun hne => hprevMem _ ?_) (fun hne => hnextMem _ ?_) hash' hmem'
      · rw [← hprev]
        exact hpointer _ hne
      · rw [← hnext]
        exact hpointer _ hne
  · rw [AList.lookup_insert, hr.record_new, hprev, hnext]
    rfl
  · intro hash' l hne hl
    rw [AList.lookup_insert_ne hne]
    exact lookup_insertBlockIndex (lookup_insertBlockIndex (lookup_insertBlockIndex hl))

/-- One more record: its own fields are set, and its predecessor is made if it was not met. -/
theorem Restored.loadDiskIndex : ∃ s', loadDiskIndex params fUseFastIndex nAdjustedTime s
        (DiskIndex.new params.crypto index hash pindex) = .ok s' ∧
      Restored index (hash :: read) s' := by
  obtain ⟨pprev, hr⟩ := h hash pindex hlookup
  obtain ⟨mapBlockIndex, hload, hmem, hnew, hold⟩ :=
    hs.loadEntry h hlookup fUseFastIndex nAdjustedTime
  refine ⟨_, bind_eq_ok.mpr ⟨mapBlockIndex, hload, rfl⟩, hmem, ?_, ?_, ?_⟩
  · intro hash' hread pindex' hlookup'
    by_cases hsame : hash' = hash
    · subst hsame
      cases hlookup.symm.trans hlookup'
      exact hnew
    · exact hold hash' _ hsame
        (hs.record hash' (mem_of_ne_of_mem hsame hread) pindex' hlookup')
  · intro hash' hread
    simp only [hr.getBlockHash_new h]
    by_cases hsame : hash' = hash
    · rw [hsame, Function.update_self]
      rfl
    · rw [Function.update_of_ne hsame]
      exact hs.stake hash' (mem_of_ne_of_mem hsame hread)
  · intro stake
    have hflag : (DiskIndex.new params.crypto index hash pindex).isProofOfStake =
        pindex.record.fProofOfStake := pindex.record.flag.symm
    have hseen : stake ∈ (if pindex.record.fProofOfStake then
        insert (index.stake hash) s.setStakeSeen else s.setStakeSeen) ↔
          (pindex.record.fProofOfStake ∧ index.stake hash = stake) ∨
            stake ∈ s.setStakeSeen := by
      split
      · next hstake => simp [hstake, eq_comm]
      · next hstake => simp [hstake]
    simp only [hflag]
    refine hseen.trans ?_
    rw [hs.seen]
    constructor
    · rintro (⟨hstake, heq⟩ | ⟨hash', hread, hrest⟩)
      · exact ⟨hash, mem_cons_self, pindex, hlookup, hstake, heq⟩
      · exact ⟨hash', mem_cons_of_mem _ hread, hrest⟩
    · rintro ⟨hash', hread, pindex', hlookup', hstake, heq⟩
      rcases mem_cons.mp hread with rfl | hread
      · cases hlookup.symm.trans hlookup'
        exact .inl ⟨hstake, heq⟩
      · exact .inr ⟨hash', hread, pindex', hlookup', hstake, heq⟩

end

theorem read_new {α : Type} {r : Reader CDataStream α} {w : List UInt8} {a : α} (h : Reads r w a)
    (rest : List UInt8) (hlen : (w ++ rest).length < 2 ^ 32) :
    ∃ ss, r (CDataStream.new (w ++ rest)) = .ok (a, ss) := by
  have hrest : ByteStream.Rest (CDataStream.new (w ++ rest)) (w ++ rest) :=
    ⟨CDataStream.valid_new hlen, CDataStream.bytes_new _⟩
  obtain ⟨ss, hss, -⟩ := h hrest
  exact ⟨ss, hss⟩

variable (fUseFastIndex : Bool) (nAdjustedTime : List UInt8 → Int)
  {others : List (List UInt8 × List UInt8)}

theorem loadLoop_writeBlockIndex (h : index.Ok params)
    (hlookup : index.mapBlockIndex.lookup hash = some pindex)
    (rest : List (List UInt8 × List UInt8)) :
    loadLoop params fUseFastIndex nAdjustedTime s
        (index.writeBlockIndex params.crypto hash pindex :: rest) =
      (loadDiskIndex params fUseFastIndex (nAdjustedTime (blockIndexKey hash)) s
        (DiskIndex.new params.crypto index hash pindex)).bind fun s =>
          loadLoop params fUseFastIndex nAdjustedTime s rest := by
  obtain ⟨pprev, hr⟩ := h hash pindex hlookup
  have hnonneg : (0 : Int) ≤ pindex.record.nHeight := by
    rw [hr.nHeight_eq h]
    exact Int.natCast_nonneg _
  have hkeyLen : (blockIndexKey hash).length < 2 ^ 32 := by
    simp [blockIndexKey, serializeBytes, serializeUint256, compactSize, blockIndexType]
  have htype : Reads (σ := CDataStream) unserializeString (serializeBytes blockIndexType)
      blockIndexType := reads_string (by decide)
  have hvalue : Reads (σ := CDataStream) DiskIndex.unserialize
      (DiskIndex.new params.crypto index hash pindex).serialize
      (DiskIndex.new params.crypto index hash pindex) :=
    DiskIndex.reads (Int.le_trans (by decide) hnonneg) hr.nHeight_lt hr.noStake_new
  obtain ⟨ssKey, hssKey⟩ := read_new htype _ hkeyLen
  obtain ⟨ssValue, hssValue⟩ := read_new hvalue []
    (by rw [append_nil]; exact DiskIndex.length_serialize_lt _)
  rw [append_nil] at hssValue
  have hssKey : unserializeString (CDataStream.new (blockIndexKey hash)) =
      .ok (blockIndexType, ssKey) := hssKey
  rw [MemIndex.writeBlockIndex, hr.blockHash_new h]
  simp only [loadLoop, hssKey, hssValue, bind, Except.bind, bne_self_eq_false,
    Bool.false_eq_true, if_false]

/-- The entries behind those of the block index. -/
def OtherType (others : List (List UInt8 × List UInt8)) : Prop :=
  ∀ entry ∈ others.head?, ∃ strType ss,
    unserializeString (CDataStream.new entry.1) = .ok (strType, ss) ∧ strType ≠ blockIndexType

theorem loadLoop_others (hothers : OtherType others) (s : LoadState) :
    loadLoop params fUseFastIndex nAdjustedTime s others = .ok s := by
  cases others with
  | nil => rfl
  | cons entry others =>
    obtain ⟨strType, ss, hread, hne⟩ := hothers entry rfl
    simp only [loadLoop, hread, bind, Except.bind]
    rw [if_pos (bne_iff_ne.mpr hne)]

/-- The loop reads entries of the index, and stops behind them. -/
theorem Restored.loadLoop (h : index.Ok params) (hothers : OtherType others) :
    ∀ (items : List (Σ _ : Uint256, LoadedIndex))
      {read : List Uint256} {s : LoadState}, Restored index read s →
      (∀ item ∈ items, index.mapBlockIndex.lookup item.1 = some item.2) →
      ∃ s' read', loadLoop params fUseFastIndex nAdjustedTime s (items.map (fun item =>
          index.writeBlockIndex params.crypto item.1 item.2) ++ others) = .ok s' ∧
        Restored index read' s' ∧ (∀ hash ∈ read, hash ∈ read') ∧ ∀ item ∈ items, item.1 ∈ read'
  | [], read, s, hs, _ =>
    ⟨s, read, loadLoop_others fUseFastIndex nAdjustedTime hothers s, hs, fun _ hread => hread,
      fun _ hitem => absurd hitem not_mem_nil⟩
  | item :: items, read, s, hs, hitems => by
    rw [forall_mem_cons] at hitems
    obtain ⟨s₁, hload, hs₁⟩ := hs.loadDiskIndex h hitems.1 fUseFastIndex
      (nAdjustedTime (blockIndexKey item.1))
    obtain ⟨s', read', hloop, hs', hsub, hread⟩ := Restored.loadLoop h hothers items hs₁ hitems.2
    refine ⟨s', read', ?_, hs', fun hash hmem => hsub hash (mem_cons_of_mem _ hmem), ?_⟩
    · rw [map_cons, cons_append, loadLoop_writeBlockIndex fUseFastIndex nAdjustedTime h
        hitems.1, hload]
      exact hloop
    · rw [forall_mem_cons]
      exact ⟨hsub item.1 mem_cons_self, hread⟩

end Reading

/-! ## Calculating -/

/-- All records are there, and those in `done` are complete. -/
def Recomputed (index : MemIndex) (done : List Uint256) (mapBlockIndex : LoadedMap) : Prop :=
  ∀ hash, mapBlockIndex.lookup hash = (index.mapBlockIndex.lookup hash).map fun pindex =>
    if done.contains hash then pindex else pindex.onDisk

section Calculating

variable {done : List Uint256} {mapBlockIndex map₀ : LoadedMap}

theorem Recomputed.mem_iff (h : Recomputed index done mapBlockIndex) (hash : Uint256) :
    hash ∈ mapBlockIndex ↔ hash ∈ index.mapBlockIndex := by
  rw [← AList.lookup_isSome, ← AList.lookup_isSome, h, isSome_map]

theorem Recomputed.length_keys (h : Recomputed index done mapBlockIndex) :
    mapBlockIndex.keys.length = index.mapBlockIndex.keys.length := by
  have hperm : mapBlockIndex.keys.Perm index.mapBlockIndex.keys :=
    (perm_ext_iff_of_nodup mapBlockIndex.keys_nodup index.mapBlockIndex.keys_nodup).mpr
      fun hash => by rw [← AList.mem_keys, ← AList.mem_keys, h.mem_iff]
  exact hperm.length_eq

section

variable (h : Recomputed index done mapBlockIndex)
  (hclosed : ∀ hash ∈ done, ∀ pindex, index.mapBlockIndex.lookup hash = some pindex →
    ∀ hash' ∈ pindex.pprev, hash' ∈ done)
include h hclosed

/-- Where all ancestors are done, following `pprev` gives those of the index. -/
theorem Recomputed.followPprev : ∀ (n : Nat) {ptr : Option Uint256}, (∀ hash ∈ ptr, hash ∈ done) →
      followPprev mapBlockIndex n ptr = followPprev index.mapBlockIndex n ptr
  | 0, _, _ => rfl
  | n + 1, none, _ => rfl
  | n + 1, some hash, hptr => by
    have hdone := hptr hash rfl
    rw [NovaCoin.followPprev, NovaCoin.followPprev, h,
      map_congr (fun _ _ => if_pos (contains_iff_mem.mpr hdone))]
    cases hlookup : index.mapBlockIndex.lookup hash with
    | none => rfl
    | some pindex =>
      show pindex.record :: _ = pindex.record :: _
      rw [Recomputed.followPprev n (hclosed hash hdone pindex hlookup)]

/-- Heights grow along the sorted list, so the predecessor has been done. -/
theorem Recomputed.calculateTrust (hindex : index.Ok params)
    (hlookup : index.mapBlockIndex.lookup hash = some pindex)
    (hdone : ∀ hash' ∈ pindex.pprev, hash' ∈ done) :
    ∃ mapBlockIndex', calculateTrust params mapBlockIndex hash = .ok mapBlockIndex' ∧
      Recomputed index (done ++ [hash]) mapBlockIndex' := by
  obtain ⟨pprev, hr⟩ := hindex hash pindex hlookup
  -- the two values that the record has before are not used
  obtain ⟨nChainTrust, nStakeModifierChecksum, hl⟩ : ∃ nChainTrust nStakeModifierChecksum,
      mapBlockIndex.lookup hash = some { pindex with
        record := { pindex.record with nChainTrust, nStakeModifierChecksum } } := by
    rw [h, hlookup, map_some]
    split
    · exact ⟨pindex.record.nChainTrust, pindex.record.nStakeModifierChecksum, rfl⟩
    · exact ⟨0, 0, rfl⟩
  have hfollow : NovaCoin.followPprev mapBlockIndex mapBlockIndex.keys.length pindex.pprev =
      pprev := by
    rw [h.length_keys, h.followPprev hclosed _ hdone]
    exact hr.ancestors hindex
  have hchecksum := hr.checksum
  rw [← hr.hashBlock, ← hfollow] at hchecksum
  have hcalc : NovaCoin.calculateTrust params mapBlockIndex hash =
      .ok (mapBlockIndex.insert hash pindex) := by
    refine bind_eq_ok.mpr ⟨_, getOr_eq_ok.mpr hl, bind_eq_ok.mpr ⟨_, getOr_eq_ok.mpr hchecksum,
      require_bind_eq_ok.mpr ⟨hr.checkpoint, ?_⟩⟩⟩
    simp only [hfollow, ← hr.nChainTrust]
    rfl
  refine ⟨_, hcalc, fun hash' => ?_⟩
  rw [lookup_insert_ite]
  split
  · next heq =>
    have hmem : hash ∈ done ++ [hash] := mem_append_right _ (mem_singleton_self _)
    rw [heq, hlookup, map_some, if_pos (contains_iff_mem.mpr hmem)]
  · next hne =>
    rw [h]
    refine Option.map_congr fun pindex' _ => ?_
    simp [hne]

end

/-- A predecessor is lower than its successor, so it comes first in the order by height. -/
theorem mem_done_of_pprev (hindex : index.Ok params) (h₀ : Recomputed index [] map₀)
    {rest : List Uint256} (hsorted : SortedByHeight map₀ (done ++ rest))
    (hlookup : index.mapBlockIndex.lookup hash = some pindex)
    (hbefore : ∀ hash' ∈ rest, hash' = hash ∨ ∀ l ∈ map₀.lookup hash, ∀ l' ∈ map₀.lookup hash',
      l.record.nHeight ≤ l'.record.nHeight) : ∀ hash' ∈ pindex.pprev, hash' ∈ done := by
  intro hash' hpprev
  obtain ⟨pprev, hr⟩ := hindex hash pindex hlookup
  have hchain := hr.chain
  rw [mem_def.mp hpprev] at hchain
  cases hchain with
  | @cons _ pindex' pprev' hlookup' hchain' =>
    have hheight : pindex.record.nHeight = pindex'.record.nHeight + 1 := hr.nHeight
    have hl : map₀.lookup hash = some pindex.onDisk := by
      rw [h₀, hlookup]
      rfl
    have hl' : map₀.lookup hash' = some pindex'.onDisk := by
      rw [h₀, hlookup']
      rfl
    have hmem : hash' ∈ done ++ rest := hsorted.perm.mem_iff.mpr (mem_of_lookup hl')
    rcases mem_append.mp hmem with hdone | hrest
    · exact hdone
    · exfalso
      rcases hbefore hash' hrest with rfl | hle
      · cases hlookup.symm.trans hlookup'
        omega
      · have hle : pindex.record.nHeight ≤ pindex'.record.nHeight := hle pindex.onDisk hl pindex'.onDisk hl'
        omega

theorem recomputed_foldAll (hindex : index.Ok params) (h₀ : Recomputed index [] map₀)
    {vSortedByHeight : List Uint256} (hsorted : SortedByHeight map₀ vSortedByHeight) :
    ∃ mapBlockIndex', foldAll (calculateTrust params) map₀ vSortedByHeight = .ok mapBlockIndex' ∧
      Recomputed index vSortedByHeight mapBlockIndex' := by
  refine exists_foldAll_done h₀ fun done hash rest mapBlockIndex hall h => ?_
  rw [← hall] at hsorted
  obtain ⟨-, hrest, hcross⟩ := pairwise_append.mp hsorted.sorted
  have hmem : hash ∈ map₀ := hsorted.perm.mem_iff.mp (mem_append_right _ mem_cons_self)
  obtain ⟨pindex, hlookup⟩ := exists_lookup ((h₀.mem_iff hash).mp hmem)
  have hclosed : ∀ hash' ∈ done, ∀ pindex', index.mapBlockIndex.lookup hash' = some pindex' →
      ∀ hash'' ∈ pindex'.pprev, hash'' ∈ done := fun hash' hdone pindex' hlookup' =>
    mem_done_of_pprev hindex h₀ hsorted hlookup' fun hash'' hmem'' =>
      .inr (hcross hash' hdone hash'' hmem'')
  refine h.calculateTrust hclosed hindex hlookup ?_
  refine mem_done_of_pprev hindex h₀ hsorted hlookup fun hash' hmem' => ?_
  rcases mem_cons.mp hmem' with heq | hmem'
  · exact .inl heq
  · exact .inr ((pairwise_cons.mp hrest).1 hash' hmem')

end Calculating

/-! ## The block index that `AddToBlockIndex` builds -/

def BlockTree.memIndex (tree : BlockTree) (pnext : Uint256 → Option Uint256)
    (stake : Uint256 → Stake) : MemIndex where
  mapBlockIndex := AssocMap.mapValues (fun hash chain => ⟨chain.headD (.null hash),
    chain.tail.head?.map (·.hashBlock), pnext hash⟩) tree
  stake

section Added

variable {mapProofOfStake : Uint256 → Option Uint256} {blocks : Set CBlock} {tree : BlockTree}
  {pnext : Uint256 → Option Uint256} {stake : Uint256 → Stake}

theorem BlockTree.lookup_memIndex {r : FullIndex} (h : tree.lookup hash = some (r :: pprev)) :
    (tree.memIndex pnext stake).mapBlockIndex.lookup hash =
      some ⟨r, pprev.head?.map (·.hashBlock), pnext hash⟩ := by
  show (AssocMap.mapValues _ tree).lookup hash = _
  rw [AssocMap.lookup_mapValues, h]
  rfl

theorem IndexedChain.memIndex : ∀ {chain : PFullIndex}, IndexedChain tree.lookup chain →
    (tree.memIndex pnext stake).Chain (chain.head?.map (·.hashBlock)) chain
  | [], _ => .null
  | r :: pprev, h =>
    .cons (BlockTree.lookup_memIndex (h r pprev suffix_rfl))
      (h.of_suffix (suffix_cons _ _)).memIndex

theorem getProofOfStake_of_work {b : CBlock} (h : b.isProofOfStake = false) :
    b.getProofOfStake = (COutPoint.null, 0) := by
  unfold CBlock.isProofOfStake at h
  unfold CBlock.getProofOfStake
  split
  · next tx _ hvtx =>
    rw [hvtx] at h
    have hwork : tx.isCoinStake = false := h
    rw [hwork, if_neg Bool.false_ne_true]
  · rfl

/-- Every record is as `AddToBlockIndex` leaves it. -/
theorem TreeOk.memIndex (hblocks : BlockSet params blocks)
    (h : TreeOk params mapProofOfStake blocks tree)
    (hheight : ∀ hash r pprev, tree.lookup hash = some (r :: pprev) → r.nHeight < 2 ^ 31)
    (hpnext : ∀ hash ∈ tree, ∀ next ∈ pnext hash, ∃ r prev older,
      tree.lookup next = some (r :: prev :: older) ∧ prev.hashBlock = hash)
    (hstake : ∀ b ∈ blocks, stake (params.crypto.blockHash b) = b.getProofOfStake) :
    (tree.memIndex pnext stake).Ok params := by
  intro hash pindex hlookup
  have hmem : hash ∈ tree := by
    have hsome := AList.lookup_isSome.mpr (mem_of_lookup hlookup)
    rw [BlockTree.memIndex, AssocMap.lookup_mapValues, isSome_map] at hsome
    exact AList.lookup_isSome.mp hsome
  obtain ⟨chain, hfind⟩ := exists_lookup hmem
  obtain ⟨b, r, pprev, rfl, rfl, hr⟩ := h hash chain hfind
  cases (BlockTree.lookup_memIndex hfind).symm.trans hlookup
  have hrecord := hr.recordOf
  refine ⟨pprev, hr.indexed_pprev.memIndex, hrecord.hashBlock, ?_, hblocks.ne_zero b hr.mem, ?_,
    hheight _ r pprev hfind, ?_, hrecord.nChainTrust, ?_, hrecord.checkpoint, ?_⟩
  · -- the header is that of the block
    simp only [LoadedIndex.header, hr.hashPrev hblocks h, hrecord.nVersion, hrecord.hashMerkleRoot,
      hrecord.nTime, hrecord.nBits, hrecord.nNonce]
    rfl
  · have hnHeight := hrecord.nHeight
    cases pprev with
    | nil => exact hnHeight
    | cons prev older => exact hnHeight
  · intro next hnext
    obtain ⟨r', prev, older, hfind', hprev⟩ := hpnext _ hmem next hnext
    exact ⟨_, BlockTree.lookup_memIndex hfind', congrArg some hprev⟩
  · rw [← hrecord.hashBlock]
    exact hrecord.checksum
  · intro hwork
    refine ⟨(hstake b hr.mem).trans (getProofOfStake_of_work ?_), hrecord.noProof hwork⟩
    rw [← hrecord.fProofOfStake]
    exact hwork

end Added

/-! ## The restart -/

/-- `LoadBlockIndex` builds the block index that was written, in whatever order entries are read and
records of a height sorted: the same records, fields and pointers, and `setStakeSeen`. -/
theorem loadBlockIndex_restores (params : ChainParams) (index : MemIndex) (h : index.Ok params)
    (blocks others : List (List UInt8 × List UInt8))
    (hblocks : blocks.Perm (index.blockEntries params.crypto)) (hothers : OtherType others)
    (fUseFastIndex : Bool) (nAdjustedTime : List UInt8 → Int) :
    ∃ s, loadLoop params fUseFastIndex nAdjustedTime .empty (blocks ++ others) = .ok s ∧
      (∀ hash ∈ index.mapBlockIndex, s.stake hash = index.stake hash) ∧
      (∀ stake, stake ∈ s.setStakeSeen ↔ ∃ hash pindex, index.mapBlockIndex.lookup hash = some pindex ∧
        pindex.record.fProofOfStake = true ∧ index.stake hash = stake) ∧
      (∃ vSortedByHeight, SortedByHeight s.mapBlockIndex vSortedByHeight) ∧
      ∀ vSortedByHeight, SortedByHeight s.mapBlockIndex vSortedByHeight →
        ∃ mapBlockIndex, foldAll (calculateTrust params) s.mapBlockIndex vSortedByHeight =
            .ok mapBlockIndex ∧
          ∀ hash, mapBlockIndex.lookup hash = index.mapBlockIndex.lookup hash := by
  -- the entries in the order in which they are read
  have hitems : Relation.Comp (· = map (fun item : Σ _ : Uint256, LoadedIndex =>
      index.writeBlockIndex params.crypto item.1 item.2) ·) (·.Perm ·) blocks
      index.mapBlockIndex.entries := by
    rw [eq_map_comp_perm]
    exact hblocks
  obtain ⟨items, rfl, hperm⟩ := hitems
  have hmem : ∀ hash pindex, (⟨hash, pindex⟩ : Σ _ : Uint256, LoadedIndex) ∈ items ↔
      index.mapBlockIndex.lookup hash = some pindex := fun hash pindex =>
    hperm.mem_iff.trans AList.mem_lookup_iff.symm
  obtain ⟨s, read, hloop, hs, -, hread⟩ := Restored.loadLoop fUseFastIndex nAdjustedTime h hothers
    items (restored_empty index) fun item hitem => (hmem item.1 item.2).mp hitem
  have hread : ∀ hash pindex, index.mapBlockIndex.lookup hash = some pindex → hash ∈ read :=
    fun hash pindex hlookup => hread ⟨hash, pindex⟩ ((hmem hash pindex).mpr hlookup)
  have h₀ : Recomputed index [] s.mapBlockIndex := by
    intro hash
    cases hlookup : index.mapBlockIndex.lookup hash with
    | none =>
      refine AList.lookup_eq_none.mpr fun hmem => ?_
      exact AList.lookup_eq_none.mp hlookup (hs.mem hash hmem)
    | some pindex => exact hs.record hash (hread hash pindex hlookup) pindex hlookup
  refine ⟨s, hloop, ?_, ?_, exists_sortedByHeight _, ?_⟩
  · intro hash hmem
    obtain ⟨pindex, hlookup⟩ := exists_lookup hmem
    exact hs.stake hash (hread hash pindex hlookup)
  · intro stake
    rw [hs.seen]
    constructor
    · rintro ⟨hash, -, pindex, hrest⟩
      exact ⟨hash, pindex, hrest⟩
    · rintro ⟨hash, pindex, hlookup, hrest⟩
      exact ⟨hash, hread hash pindex hlookup, pindex, hlookup, hrest⟩
  · intro vSortedByHeight hsorted
    obtain ⟨mapBlockIndex, hfold, hdone⟩ := recomputed_foldAll h h₀ hsorted
    refine ⟨mapBlockIndex, hfold, fun hash => ?_⟩
    rw [hdone]
    cases hlookup : index.mapBlockIndex.lookup hash with
    | none => rfl
    | some pindex =>
      have hmem : hash ∈ s.mapBlockIndex := (h₀.mem_iff hash).mpr (mem_of_lookup hlookup)
      exact congrArg some (if_pos (contains_iff_mem.mpr (hsorted.perm.mem_iff.mpr hmem)))

/-! ### Two children of the genesis block -/

def siblingTree : BlockTree := .addAll checkpointParams (fun _ => none) ∅ siblingArrivals

def siblingIndex : MemIndex :=
  siblingTree.memIndex (fun hash => if hash = hashG then some hashA else none)
    fun _ => (COutPoint.null, 0)

theorem siblingIndex_ok : siblingIndex.Ok checkpointParams := by
  have hmem : ∀ a ∈ siblingArrivals, a.b ∈ siblings := by
    simp [siblingArrivals, siblings]
  refine (treeOk_addAll hmem treeOk_empty).memIndex blockSet_siblings ?_ ?_ ?_
  · have hall : (siblingTree.entries.all fun item => item.2.all fun r => decide (r.nHeight < 2 ^ 31)) =
        true := by
      decide +kernel
    intro hash r pprev hfind
    have hitem := all_eq_true.mp hall _ (AList.mem_lookup_iff.mp hfind)
    exact of_decide_eq_true (all_eq_true.mp hitem r mem_cons_self)
  · intro hash _ next hnext
    obtain ⟨chain, hfind, prev, hhead, hprev⟩ : ∃ chain, siblingTree.lookup hashA = some chain ∧
        ∃ prev, chain.tail.head? = some prev ∧ prev.hashBlock = hashG := by
      decide +kernel
    split at hnext
    · next hgenesis =>
      obtain rfl := some.inj hnext
      obtain ⟨older, hold⟩ := head?_eq_some_iff.mp hhead
      cases chain with
      | nil => cases hold
      | cons r pprev =>
        obtain rfl : pprev = prev :: older := hold
        exact ⟨r, prev, older, hfind, hprev.trans hgenesis.symm⟩
    · cases hnext
  · rintro b (rfl | rfl | rfl)
    all_goals rfl

/-- The entries are read backwards, and there is one of another type behind them. -/
theorem siblingIndex_restores :
    siblingIndex.mapBlockIndex.keys.length = 3 ∧
    ∃ s, loadLoop checkpointParams true (fun _ => 1600100000) .empty
        ((siblingIndex.blockEntries checkpointCrypto).reverse ++
          [(serializeBytes [0x74, 0x78], [])]) = .ok s ∧
      ∃ vSortedByHeight mapBlockIndex, SortedByHeight s.mapBlockIndex vSortedByHeight ∧
        foldAll (calculateTrust checkpointParams) s.mapBlockIndex vSortedByHeight =
          .ok mapBlockIndex ∧
        ∀ hash, mapBlockIndex.lookup hash = siblingIndex.mapBlockIndex.lookup hash := by
  have hothers : OtherType [(serializeBytes [0x74, 0x78], [])] := by
    rintro entry ⟨⟩
    obtain ⟨ss, hss⟩ := read_new (reads_string (σ := CDataStream) (v := [0x74, 0x78]) (by decide)) []
      (by decide)
    exact ⟨_, ss, hss, by decide⟩
  obtain ⟨s, hload, -, -, ⟨v, hsorted⟩, hcalc⟩ := loadBlockIndex_restores checkpointParams siblingIndex
    siblingIndex_ok _ _ (reverse_perm _) hothers true fun _ => 1600100000
  obtain ⟨mapBlockIndex, hfold, hsame⟩ := hcalc v hsorted
  exact ⟨by decide +kernel, s, hload, v, mapBlockIndex, hsorted, hfold, hsame⟩

end NovaCoin
