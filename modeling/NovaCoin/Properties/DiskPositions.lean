import NovaCoin.BlockFile
import NovaCoin.Properties.Maturity
import NovaCoin.Properties.WireFormat

/-!
# Positions on disk

`ConnectBlock` does not look at the block file. It takes the size of an empty block, subtracts
what its two empty vectors take, adds what the length of `vtx` takes, and goes on from there by
the sizes of the transactions. This is where `WriteToDisk` has put them, so that every
transaction is read back from the position in the index.
-/

namespace NovaCoin

open Guard SpentIndex List

/-! ## The layout of a block -/

/-- The bytes of a block before its `k`-th transaction. -/
def CBlock.upTo (b : CBlock) (k : Nat) : List UInt8 :=
  b.serializeHeader ++ compactSize b.vtx.length ++ (b.vtx.take k).flatMap CTransaction.serialize

variable {tx : CTransaction} {k : Nat} {α : Type} {f : α → List UInt8} {pos : CDiskTxPos}

theorem CBlock.serialize_eq_upTo {b : CBlock} (h : b.vtx[k]? = some tx) :
    b.serialize = b.upTo k ++ (tx.serialize ++
      ((b.vtx.drop (k + 1)).flatMap CTransaction.serialize ++ serializeBytes b.vchBlockSig)) := by
  have hsplit : b.vtx = b.vtx.take k ++ tx :: b.vtx.drop (k + 1) := by
    obtain ⟨hk, rfl⟩ := List.getElem?_eq_some_iff.mp h
    rw [cons_getElem_drop_succ, take_append_drop]
  have hflat : b.vtx.flatMap CTransaction.serialize =
      (b.vtx.take k).flatMap CTransaction.serialize ++ (tx.serialize ++
        (b.vtx.drop (k + 1)).flatMap CTransaction.serialize) := by
    conv_lhs => rw [hsplit]
    rw [flatMap_append, flatMap_cons]
  simp only [serialize, serializeVector, upTo, hflat, append_assoc]

/-- The size of an empty block, less two empty vectors, is that of a header. -/
theorem firstTxPos_eq (pindex : CBlockIndex) (b : CBlock) :
    firstTxPos pindex b false = pindex.nBlockPos + UInt32.ofNat (b.upTo 0).length := by
  have hlen : (b.upTo 0).length = 80 + getSizeOfCompactSize b.vtx.length := by
    simp [CBlock.upTo, CBlock.serializeHeader, serializeUint256, getSizeOfCompactSize]
    omega
  have hnull : UInt32.ofNat CBlock.null.getSerializeSize -
      UInt32.ofNat (2 * getSizeOfCompactSize 0) = UInt32.ofNat 80 := by
    decide +kernel
  have hsub : ∀ p n m : UInt32, p + n - m = p + (n - m) := by
    intro p n m
    rw [UInt32.sub_eq_add_neg, UInt32.sub_eq_add_neg, UInt32.add_assoc]
  rw [firstTxPos, if_neg Bool.false_ne_true, hsub, hnull, hlen, UInt32.ofNat_add,
    ← UInt32.add_assoc]

theorem getElem?_txPositions {pindex : CBlockIndex} : ∀ {vtx : List CTransaction}
    {nTxPos : UInt32} (k : Nat), (txPositions pindex false nTxPos vtx)[k]? =
      (vtx[k]?).map fun tx => (⟨pindex.nFile, pindex.nBlockPos,
        nTxPos + UInt32.ofNat ((vtx.take k).flatMap CTransaction.serialize).length⟩, tx)
  | [], _, _ => by simp [txPositions]
  | tx :: vtx, nTxPos, 0 => by simp [txPositions]
  | tx :: vtx, nTxPos, k + 1 => by
    rw [txPositions, getElem?_cons_succ, getElem?_txPositions k, take_succ_cons, flatMap_cons,
      length_append, UInt32.ofNat_add, ← UInt32.add_assoc]
    rfl

/-- The position of a transaction is that of its bytes in the block, in 32 bits, for every width of
the length of `vtx`. -/
theorem getElem?_stored (pindex : CBlockIndex) (b : CBlock) (k : Nat) :
    (b.stored pindex)[k]? = (b.vtx[k]?).map fun tx => (⟨pindex.nFile, pindex.nBlockPos,
      pindex.nBlockPos + UInt32.ofNat (b.upTo k).length⟩, tx) := by
  have hlen : (b.upTo k).length =
      (b.upTo 0).length + ((b.vtx.take k).flatMap CTransaction.serialize).length := by
    simp only [CBlock.upTo, length_append, take_zero, flatMap_nil, length_nil]
    omega
  rw [CBlock.stored, getElem?_txPositions, firstTxPos_eq, hlen, UInt32.ofNat_add,
    ← UInt32.add_assoc]

/-! ## Objects that fit into a block -/

theorem length_le_flatMap_of_mem {l : List α} {a : α} (h : a ∈ l) :
    (f a).length ≤ (l.flatMap f).length := by
  exact (sublist_flatten_of_mem (mem_map_of_mem h)).length_le

theorem length_le_flatMap (hf : ∀ a, 1 ≤ (f a).length) :
    ∀ l : List α, l.length ≤ (l.flatMap f).length
  | [] => Nat.zero_le _
  | a :: l => by
    have ih := length_le_flatMap hf l
    have ha := hf a
    rw [flatMap_cons, length_append, length_cons]
    omega

theorem CTransaction.bounded_of_length_le (h : tx.serialize.length ≤ MAX_SIZE) : tx.Bounded := by
  have hin : (tx.vin.flatMap CTxIn.serialize).length ≤ tx.serialize.length := by
    simp only [serialize, serializeVector, length_append]
    omega
  have hout : (tx.vout.flatMap CTxOut.serialize).length ≤ tx.serialize.length := by
    simp only [serialize, serializeVector, length_append]
    omega
  constructor
  · refine (length_le_flatMap (fun txin => ?_) tx.vin).trans (hin.trans h)
    simp only [CTxIn.serialize, length_append, length_leBytes]
    omega
  · intro txin htxin
    have hmem := length_le_flatMap_of_mem (f := CTxIn.serialize) htxin
    simp only [CTxIn.serialize, serializeBytes, length_append] at hmem
    omega
  · refine (length_le_flatMap (fun txout => ?_) tx.vout).trans (hout.trans h)
    simp only [CTxOut.serialize, length_append, length_leBytes]
    omega
  · intro txout htxout
    have hmem := length_le_flatMap_of_mem (f := CTxOut.serialize) htxout
    simp only [CTxOut.serialize, serializeBytes, length_append] at hmem
    omega

/-! ## Reading back -/

theorem BlockStore.writeToDisk_eq_some {fTestNet : Bool} {store store' : BlockStore} {b : CBlock}
    {nFile nBlockPos : UInt32} (h : store.writeToDisk fTestNet b = some (store', nFile, nBlockPos)) :
    opens nFile ∧ nBlockPos.toNat < 0x7F000000 - MAX_SIZE + 8 ∧
      nBlockPos.toNat = (store.files nFile ++ indexHeader fTestNet b).length ∧
      store'.files nFile = store.files nFile ++ indexHeader fTestNet b ++ b.serialize := by
  obtain ⟨n, hn, -⟩ := Option.bind_eq_some_iff.mp h
  rw [writeToDisk_of_append hn] at h
  cases h
  obtain ⟨hopens, hroom⟩ := appendBlockFile_eq_some hn
  have hlen : (store.files nFile ++ indexHeader fTestNet b).length =
      (store.files nFile).length + 8 := by
    simp [indexHeader]
  have hpos : (UInt32.ofNat (store.files nFile ++ indexHeader fTestNet b).length).toNat =
      (store.files nFile ++ indexHeader fTestNet b).length := by
    rw [UInt32.toNat_ofNat', Nat.mod_eq_of_lt (by omega)]
  exact ⟨hopens, by omega, hpos, Function.update_self _ _ _⟩

theorem BlockStore.readTx_of_drop {abi : Abi} {store : BlockStore} (hopens : opens pos.nFile)
    (hfile : tx.serialize <+: (store.files pos.nFile).drop pos.nTxPos.toNat) (hb : tx.Bounded) :
    store.readTx abi pos = some tx := by
  obtain ⟨rest, hrest⟩ := hfile
  have hstream : Wire.ByteStream.Rest (CAutoFile.mk (store.files pos.nFile) pos.nTxPos.toNat)
      (tx.serialize ++ rest) := hrest.symm
  obtain ⟨f, hread, -⟩ := CTransaction.reads abi hb hstream
  unfold readTx
  rw [if_pos hopens, hread]

section Written

variable {fTestNet : Bool} {store store' : BlockStore} {b : CBlock} {pindex : CBlockIndex}

theorem toNat_add_upTo (k : Nat) : (pindex.nBlockPos + UInt32.ofNat (b.upTo k).length).toNat =
    (pindex.nBlockPos.toNat + (b.upTo k).length) % 2 ^ 32 := by
  rw [UInt32.toNat_add, UInt32.toNat_ofNat', Nat.add_mod_mod]

section

variable (hwrite : store.writeToDisk fTestNet b = some (store', pindex.nFile, pindex.nBlockPos))
include hwrite

theorem toNat_add_upTo_of_writeToDisk (hsize : b.serialize.length ≤ MAX_BLOCK_SIZE)
    (hk : b.vtx[k]? = some tx) :
    (pindex.nBlockPos + UInt32.ofNat (b.upTo k).length).toNat =
      pindex.nBlockPos.toNat + (b.upTo k).length := by
  obtain ⟨-, hroom, hblockPos, -⟩ := BlockStore.writeToDisk_eq_some hwrite
  have hupTo : (b.upTo k).length ≤ b.serialize.length := by
    rw [b.serialize_eq_upTo hk, length_append]
    omega
  simp only [MAX_BLOCK_SIZE, MAX_SIZE] at hsize hroom
  rw [toNat_add_upTo, Nat.mod_eq_of_lt (by omega)]

theorem serialize_prefix_of_writeToDisk (hk : b.vtx[k]? = some tx) :
    tx.serialize <+:
      (store'.files pindex.nFile).drop (pindex.nBlockPos.toNat + (b.upTo k).length) := by
  obtain ⟨-, -, hblockPos, hfile⟩ := BlockStore.writeToDisk_eq_some hwrite
  rw [hfile, hblockPos, ← drop_drop, drop_left, b.serialize_eq_upTo hk, drop_left]
  exact prefix_append _ _

/-- What `WriteToDisk` has written is on disk, as the rest of the development assumes it. -/
theorem onDisk_of_writeToDisk (abi : Abi) (hsize : b.serialize.length ≤ MAX_BLOCK_SIZE) :
    OnDisk (store'.readTx abi) pindex b := by
  obtain ⟨hopens, hroom, hblockPos, -⟩ := BlockStore.writeToDisk_eq_some hwrite
  constructor
  · intro hnull
    rw [hnull] at hopens
    cases hopens
  · intro hone
    rw [hone] at hblockPos
    simp only [length_append, BlockStore.indexHeader, length_pchMessageStart,
      length_leBytes, UInt32.toNat_one] at hblockPos
    omega
  · intro t ht
    obtain ⟨k, hk⟩ := mem_iff_getElem?.mp ht
    rw [getElem?_stored] at hk
    obtain ⟨tx, htx, rfl⟩ := Option.map_eq_some_iff.mp hk
    have hlen : tx.serialize.length ≤ b.serialize.length := by
      rw [b.serialize_eq_upTo htx, length_append, length_append]
      omega
    refine BlockStore.readTx_of_drop hopens ?_ (CTransaction.bounded_of_length_le ?_)
    · show _ <+: drop (pindex.nBlockPos + UInt32.ofNat (b.upTo k).length).toNat _
      rw [toNat_add_upTo_of_writeToDisk hwrite hsize htx]
      exact serialize_prefix_of_writeToDisk hwrite htx
    · simp only [MAX_BLOCK_SIZE, MAX_SIZE] at hsize ⊢
      omega

/-- On one written block, `BlockFiles.readTx` finds what is read from the bytes of the file. -/
theorem readTx_of_writeToDisk (abi : Abi) (hsize : b.serialize.length ≤ MAX_BLOCK_SIZE)
    (h : (BlockFiles.ofChain [(pindex, b)]).readTx pos = some tx) :
    store'.readTx abi pos = some tx := by
  refine BlockFiles.readTx_of_onDisk (fun nFile nBlockPos b' hfile => ?_) h
  have hdisk := onDisk_of_writeToDisk hwrite abi hsize
  simp only [BlockFiles.ofChain, find?_cons, find?_nil] at hfile
  split at hfile
  · next hplace =>
    simp only [Bool.and_eq_true, beq_iff_eq] at hplace
    obtain ⟨rfl, rfl⟩ := hplace
    cases hfile
    refine ⟨hdisk.nFile, hdisk.nBlockPos, ?_⟩
    have hstored : b.stored (.ofPlace pindex.nFile pindex.nBlockPos) = b.stored pindex :=
      stored_congr (i := .ofPlace _ _) (j := pindex) rfl rfl b
    rw [hstored]
    exact hdisk.readTx
  · cases hfile

end

end Written

theorem pos_connectAll_of_mem {K P : Type*} [DecidableEq K] [NullPtr P] {t : Item K P} :
    ∀ {ts : List (Item K P)} (idx : Index K P), (ts.map (·.key)).Nodup → t ∈ ts →
      ∃ e, connectAll idx ts t.key = some e ∧ e.pos = t.pos
  | u :: ts, idx, hnodup, ht => by
    rw [map_cons, nodup_cons] at hnodup
    rcases mem_cons.mp ht with rfl | ht
    · -- later items have other keys, and marking outputs as spent moves no entry
      have hlater : ∀ (ts : List (Item K P)) (idx : Index K P) (e : Entry P),
          t.key ∉ ts.map (·.key) → idx t.key = some e →
          ∃ e', connectAll idx ts t.key = some e' ∧ e'.pos = e.pos := by
        intro ts
        induction ts with
        | nil => exact fun idx e _ he => ⟨e, he, rfl⟩
        | cons u ts ih =>
          intro idx e hne he
          rw [map_cons, mem_cons, not_or] at hne
          refine ih (connect idx u) (e.markAt t.key u.spends u.pos) hne.2 ?_
          rw [connect_of_ne hne.1, markAll_apply, he, Option.map_some]
      exact hlater ts _ _ hnodup.1 (connect_key idx t)
    · rw [connectAll_cons]
      exact pos_connectAll_of_mem _ hnodup.2 ht

theorem lookup_of_connectBlock {env : Env} {db db' : TxDB} {pindex pindex' : CBlockIndex}
    {pprev : PIndex} {b : CBlock} (h : connectBlock env db pindex pprev b false = .ok (db', pindex')) :
    ∀ t ∈ b.stored pindex, ∃ e, db'.lookup (env.txHash t.2) = some e ∧ e.pos = t.1 := by
  intro t ht
  obtain ⟨hfresh, -, hindex⟩ := connectBlock_index h
  have hitem : t.2.item env.crypto t.1 ∈ b.items env.crypto pindex := mem_map_of_mem ht
  obtain ⟨e, he, hpos⟩ := pos_connectAll_of_mem (index db) hfresh.nodup hitem
  rw [← hindex] at he
  exact ⟨e, he, hpos⟩

/-- The position in the index of the `k`-th transaction of a block is where its bytes begin in the
file, and it is read back from there. The first part is about blocks of every size, modulo `2 ^ 32`.
-/
theorem connectBlock_diskPositions (abi : Abi) {fTestNet : Bool} {store store' : BlockStore}
    {b : CBlock} {pindex : CBlockIndex}
    (hwrite : store.writeToDisk fTestNet b = some (store', pindex.nFile, pindex.nBlockPos)) :
    (∀ (k : Nat) (tx : CTransaction), b.vtx[k]? = some tx →
      ∃ nTxPos : UInt32, (b.stored pindex)[k]? = some (⟨pindex.nFile, pindex.nBlockPos, nTxPos⟩, tx) ∧
        nTxPos.toNat = (pindex.nBlockPos.toNat + (b.upTo k).length) % 2 ^ 32 ∧
        tx.serialize <+:
          (store'.files pindex.nFile).drop (pindex.nBlockPos.toNat + (b.upTo k).length)) ∧
    ∀ {env : Env} {db db' : TxDB} {pindex' : CBlockIndex} {pprev : PIndex},
      connectBlock env db pindex pprev b false = .ok (db', pindex') →
      ∀ (k : Nat) (tx : CTransaction), b.vtx[k]? = some tx →
        ∃ e, db'.lookup (env.txHash tx) = some e ∧
          e.pos.nFile = pindex.nFile ∧ e.pos.nBlockPos = pindex.nBlockPos ∧
          e.pos.nTxPos.toNat = pindex.nBlockPos.toNat + (b.upTo k).length ∧
          tx.serialize <+: (store'.files pindex.nFile).drop e.pos.nTxPos.toNat ∧
          store'.readTx abi e.pos = some tx := by
  have hstored : ∀ (k : Nat) (tx : CTransaction), b.vtx[k]? = some tx →
      (b.stored pindex)[k]? = some (⟨pindex.nFile, pindex.nBlockPos,
        pindex.nBlockPos + UInt32.ofNat (b.upTo k).length⟩, tx) := by
    intro k tx hk
    rw [getElem?_stored, hk]
    rfl
  constructor
  · intro k tx hk
    exact ⟨_, hstored k tx hk, toNat_add_upTo k, serialize_prefix_of_writeToDisk hwrite hk⟩
  · intro env db db' pindex' pprev hconnect k tx hk
    obtain ⟨_, hcheck, -⟩ := bind_eq_ok.mp hconnect
    have hsize : b.serialize.length ≤ MAX_BLOCK_SIZE := getSerializeSize_of_checkBlock hcheck
    have hmem := mem_of_getElem? (hstored k tx hk)
    obtain ⟨e, he, hpos⟩ := lookup_of_connectBlock hconnect _ hmem
    have hoffset := toNat_add_upTo_of_writeToDisk hwrite hsize hk
    refine ⟨e, he, ?_⟩
    rw [hpos]
    refine ⟨rfl, rfl, hoffset, ?_, (onDisk_of_writeToDisk hwrite abi hsize).readTx _ hmem⟩
    show _ <+: drop (pindex.nBlockPos + UInt32.ofNat (b.upTo k).length).toNat _
    rw [hoffset]
    exact serialize_prefix_of_writeToDisk hwrite hk

def sampleStore : BlockStore := ⟨fun _ => List.replicate 492 0, 1⟩

theorem sampleStore_writeToDisk (b : CBlock) :
    ∃ store', sampleStore.writeToDisk true b = some (store', 1, 500) := by
  have hlen : (sampleStore.files 1).length = 492 := length_replicate
  have happend : BlockStore.appendBlockFile sampleStore.files sampleStore.nCurrentBlockFile =
      some 1 := by
    rw [BlockStore.appendBlockFile, dif_pos (by decide), show sampleStore.nCurrentBlockFile = 1 from
      rfl, hlen, if_pos (by decide)]
  have hpos : UInt32.ofNat (sampleStore.files 1 ++ BlockStore.indexHeader true b).length = 500 := by
    rw [length_append, hlen, BlockStore.indexHeader, length_append, length_leBytes]
    rfl
  exact ⟨_, by rw [BlockStore.writeToDisk_of_append happend, hpos]⟩

/-- Each of its transactions is read back at the position its entry has. -/
theorem spendingBlock_diskPositions : ∃ store' db' pindex',
    sampleStore.writeToDisk true spendingBlock = some (store', 1, 500) ∧
    connectBlock spendingEnv fundingDb (sampleIndex 1 500) [] spendingBlock false =
      .ok (db', pindex') ∧
    ∀ (k : Nat) (tx : CTransaction), spendingBlock.vtx[k]? = some tx →
      ∃ e, db'.lookup (spendingEnv.txHash tx) = some e ∧
        store'.readTx Abi.sample e.pos = some tx := by
  obtain ⟨⟨db', pindex'⟩, h⟩ := exists_connect_spendingBlock
  obtain ⟨store', hwrite⟩ := sampleStore_writeToDisk spendingBlock
  refine ⟨store', db', pindex', hwrite, h, fun k tx hk => ?_⟩
  have hplace : sampleStore.writeToDisk true spendingBlock =
      some (store', (sampleIndex 1 500).nFile, (sampleIndex 1 500).nBlockPos) := hwrite
  obtain ⟨e, he, -, -, -, -, hread⟩ := (connectBlock_diskPositions Abi.sample hplace).2 h k tx hk
  exact ⟨e, he, hread⟩

end NovaCoin
