import NovaCoin.BlockIndex
import NovaCoin.Infra.Overlay
import NovaCoin.OrphanBlock
import NovaCoin.Unserialize

/-!
# The transaction database

`CTxDB` (`txdb-leveldb.h`, `txdb-leveldb.cpp`) over LevelDB. LevelDB itself is a map from byte
strings to byte strings, whose writes succeed or change nothing; a `WriteBatch` is the list of its
operations. A call gives `none` where an assertion fails.

`Read` and `Write` are templates over the types of key and value. What each kind of key and value
is written as is a `Schema`.
-/

namespace NovaCoin

open List

open Overlay (Update Map TxnCall overlay)
open Wire (ByteStream Reader Reads)

abbrev LevelDb := Map (List UInt8) fun _ => List UInt8

abbrev WriteBatch := List (Update (List UInt8) fun _ => List UInt8)

/-- The keys of a database, the types of their values, and how both are written and read: keys
differently, values so that they are read back. -/
structure Schema (κ : Type) (τ : κ → Type) where
  key : κ → List UInt8
  value : (k : κ) → τ k → List UInt8
  unserialize : (k : κ) → List UInt8 → Option (τ k)
  key_injective : Function.Injective key
  unserialize_value : ∀ (k : κ) (v : τ k), unserialize k (value k v) = some v

namespace LevelDB

/-- `CTxDB`, with everything that is in the database. -/
structure CTxDB where
  pdb : LevelDb
  activeBatch : Option WriteBatch
  fReadOnly : Bool

/-! ## ScanBatch -/

structure CBatchScanner where
  needle : List UInt8
  deleted : Bool
  foundValue : List UInt8
  foundEntry : Bool

/-- `CBatchScanner::Put` and `CBatchScanner::Delete`. -/
def CBatchScanner.handle (scanner : CBatchScanner) :
    Update (List UInt8) (fun _ => List UInt8) → CBatchScanner
  | .put key value =>
    if key = scanner.needle then
      { scanner with foundEntry := true, deleted := false, foundValue := value }
    else scanner
  | .delete key =>
    if key = scanner.needle then { scanner with foundEntry := true, deleted := true } else scanner

/-- `CTxDB::ScanBatch`: the scanner when it has gone over the batch. -/
def scanBatch (activeBatch : WriteBatch) (key : List UInt8) : CBatchScanner :=
  activeBatch.foldl CBatchScanner.handle ⟨key, false, [], false⟩

/-! ## Reading and writing -/

namespace CTxDB

section

variable {κ : Type} {τ : κ → Type} (S : Schema κ τ)

/-- The bytes `Read` unserializes the value from. -/
def strValue (db : CTxDB) (ssKey : List UInt8) : Option (List UInt8) :=
  match db.activeBatch with
  | some activeBatch =>
    let scanner := scanBatch activeBatch ssKey
    if scanner.deleted then none
    else if scanner.foundEntry then some scanner.foundValue
    else db.pdb ssKey
  | none => db.pdb ssKey

def read (db : CTxDB) (key : κ) : Option (τ key) :=
  (db.strValue (S.key key)).bind (S.unserialize key)

/-- A write to the batch, or else to LevelDB with the given status. -/
def put (db : CTxDB) (ok : Bool) (op : Update κ τ) : Option CTxDB :=
  if db.fReadOnly then none
  else
    match db.activeBatch with
    | some activeBatch =>
      some { db with activeBatch := some (activeBatch ++ [op.encode S.key S.value]) }
    | none => some (if ok then { db with pdb := (op.encode S.key S.value).apply db.pdb } else db)

def write (db : CTxDB) (ok : Bool) (key : κ) (value : τ key) : Option CTxDB :=
  db.put S ok (.put key value)

def erase (db : CTxDB) (ok : Bool) (key : κ) : Option CTxDB := db.put S ok (.delete key)

/-- `CTxDB::Exists`. -/
def existsKey (db : CTxDB) (key : κ) : Bool :=
  let ssKey := S.key key
  match db.activeBatch with
  | some activeBatch =>
    let scanner := scanBatch activeBatch ssKey
    if scanner.foundEntry && !scanner.deleted then true
    else (db.pdb ssKey).isSome
  | none => (db.pdb ssKey).isSome

end

/-! ## Transactions -/

def txnBegin (db : CTxDB) : Option CTxDB :=
  match db.activeBatch with
  | some _ => none
  | none => some { db with activeBatch := some [] }

/-- `CTxDB::TxnCommit`: the batch is dropped whether or not LevelDB takes it. -/
def txnCommit (db : CTxDB) (ok : Bool) : Option CTxDB :=
  match db.activeBatch with
  | some activeBatch =>
    some { db with pdb := if ok then overlay db.pdb activeBatch else db.pdb, activeBatch := none }
  | none => none

def txnAbort (db : CTxDB) : CTxDB := { db with activeBatch := none }

section

variable {κ : Type} {τ : κ → Type} (S : Schema κ τ)

def step (db : CTxDB) : TxnCall κ τ → Option CTxDB
  | .begin => db.txnBegin
  | .op ok (.put key value) => db.write S ok key value
  | .op ok (.delete key) => db.erase S ok key
  | .commit ok => db.txnCommit ok
  | .abort => some db.txnAbort

def run (db : CTxDB) (calls : List (TxnCall κ τ)) : Option CTxDB := calls.foldlM (step S) db

end

end CTxDB

end LevelDB

/-! ## What the node keeps -/

def CLIENT_VERSION : Nat := 1000000 * 0 + 10000 * 7 + 100 * 6 + 9

def CDiskTxPos.serialize (pos : CDiskTxPos) : List UInt8 :=
  leBytes 4 pos.nFile.toNat ++ leBytes 4 pos.nBlockPos.toNat ++ leBytes 4 pos.nTxPos.toNat

def CTxIndex.serialize (txindex : CTxIndex) : List UInt8 :=
  leBytes 4 CLIENT_VERSION ++ txindex.pos.serialize ++
    serializeVector CDiskTxPos.serialize txindex.vSpent

variable {txindex : CTxIndex} {σ : Type}

section

variable [ByteStream σ]

def CDiskTxPos.unserialize : Reader σ CDiskTxPos := do
  let nFile ← readUInt32
  let nBlockPos ← readUInt32
  let nTxPos ← readUInt32
  return ⟨nFile, nBlockPos, nTxPos⟩

/-- `sizeof(CDiskTxPos)`. -/
def CDiskTxPos.elemSize : ElemSize := ⟨12, by decide, by decide⟩

def CTxIndex.unserialize : Reader σ CTxIndex := do
  let _nVersion ← readLe 4
  let pos ← CDiskTxPos.unserialize
  let vSpent ← unserializeVector CDiskTxPos.elemSize CDiskTxPos.unserialize
  return ⟨pos, vSpent⟩

theorem CDiskTxPos.reads (pos : CDiskTxPos) :
    Reads (σ := σ) CDiskTxPos.unserialize pos.serialize pos := by
  unfold CDiskTxPos.serialize
  exact (reads_uint32 pos.nFile).bind ((reads_uint32 pos.nBlockPos).bind
    ((reads_uint32 pos.nTxPos).map (CDiskTxPos.mk pos.nFile pos.nBlockPos)))

theorem CTxIndex.reads (h : txindex.vSpent.length ≤ MAX_SIZE) :
    Reads (σ := σ) CTxIndex.unserialize (CTxIndex.serialize txindex) txindex := by
  have hvSpent := reads_vector (σ := σ) CDiskTxPos.elemSize h fun pos _ => CDiskTxPos.reads pos
  unfold CTxIndex.serialize
  exact (reads_le (by decide)).bind (txindex.pos.reads.bind
    (hvSpent.map (SpentIndex.Entry.mk txindex.pos)))

end

/-- The keys of the transaction index and of two of the hashes. -/
inductive DbKey
  | tx (hash : Uint256)
  | hashBestChain
  | hashSyncCheckpoint
  deriving DecidableEq

/-- An index record has at most `MAX_SIZE` outputs: a transaction with more cannot be read. -/
def DbKey.Value : DbKey → Type
  | tx _ => { txindex : CTxIndex // txindex.vSpent.length ≤ MAX_SIZE }
  | hashBestChain => Uint256
  | hashSyncCheckpoint => Uint256

/-- `make_pair(string("tx"), hash)`, `string("hashBestChain")` and
`string("hashSyncCheckpoint")`. -/
def DbKey.serialize : DbKey → List UInt8
  | tx hash => serializeBytes [0x74, 0x78] ++ serializeUint256 hash
  | hashBestChain => serializeBytes
      [0x68, 0x61, 0x73, 0x68, 0x42, 0x65, 0x73, 0x74, 0x43, 0x68, 0x61, 0x69, 0x6e]
  | hashSyncCheckpoint => serializeBytes
      [0x68, 0x61, 0x73, 0x68, 0x53, 0x79, 0x6e, 0x63, 0x43, 0x68, 0x65, 0x63, 0x6b, 0x70, 0x6f,
        0x69, 0x6e, 0x74]

def DbKey.serializeValue : (key : DbKey) → key.Value → List UInt8
  | tx _, txindex => CTxIndex.serialize txindex.1
  | hashBestChain, hash => serializeUint256 hash
  | hashSyncCheckpoint, hash => serializeUint256 hash

/-- `ssValue >> value`, with the exceptions that `Read` catches. -/
def unserializeFrom {α : Type} (r : Reader CDataStream α) (strValue : List UInt8) : Option α :=
  match r (CDataStream.new strValue) with
  | .ok (value, _) => some value
  | .error _ => none

def DbKey.unserializeValue : (key : DbKey) → List UInt8 → Option key.Value
  | tx _, strValue => (unserializeFrom CTxIndex.unserialize strValue).bind fun txindex =>
      if h : txindex.vSpent.length ≤ MAX_SIZE then some ⟨txindex, h⟩ else none
  | hashBestChain, strValue => unserializeFrom readUint256 strValue
  | hashSyncCheckpoint, strValue => unserializeFrom readUint256 strValue

theorem unserializeFrom_of_reads {α : Type} {r : Reader CDataStream α} {w : List UInt8} {a : α}
    (h : Reads r w a) (hlen : w.length < 2 ^ 32) : unserializeFrom r w = some a := by
  have hrest : ByteStream.Rest (CDataStream.new w) (w ++ []) :=
    ⟨CDataStream.valid_new hlen, by rw [CDataStream.bytes_new, append_nil]⟩
  obtain ⟨s, hs, -⟩ := h hrest
  rw [unserializeFrom, hs]

theorem CTxIndex.length_serialize_lt (h : txindex.vSpent.length ≤ MAX_SIZE) :
    (CTxIndex.serialize txindex).length < 2 ^ 32 := by
  have hcompact := length_compactSize_le txindex.vSpent.length
  have hsum : ∀ l : List CDiskTxPos, (l.flatMap CDiskTxPos.serialize).length = 12 * l.length := by
    intro l
    induction l with
    | nil => rfl
    | cons pos l ih =>
      simp [CDiskTxPos.serialize]
      omega
  simp only [CTxIndex.serialize, serializeVector, length_append, length_leBytes, hsum,
    CDiskTxPos.serialize]
  simp only [MAX_SIZE] at h
  omega

theorem serializeUint256_injective : Function.Injective serializeUint256 := by
  intro h h' he
  have hn := congrArg leNat he
  rw [serializeUint256, serializeUint256, leNat_leBytes, leNat_leBytes,
    Nat.mod_eq_of_lt (show h.toNat < 256 ^ 32 from h.isLt),
    Nat.mod_eq_of_lt (show h'.toNat < 256 ^ 32 from h'.isLt)] at hn
  exact BitVec.eq_of_toNat_eq hn

/-- The first byte of a key is the length of its name. -/
def DbKey.nameLength : DbKey → UInt8
  | tx _ => 2
  | hashBestChain => 13
  | hashSyncCheckpoint => 18

theorem DbKey.head?_serialize (k : DbKey) : k.serialize.head? = some k.nameLength := by
  cases k <;> rfl

theorem DbKey.serialize_injective : Function.Injective DbKey.serialize := by
  intro k k' he
  have hname : k.nameLength = k'.nameLength := by
    have hhead := congrArg head? he
    rwa [head?_serialize, head?_serialize, Option.some.injEq] at hhead
  cases k with
  | tx hash =>
    cases k' with
    | tx hash' => rw [serializeUint256_injective (append_cancel_left he)]
    | hashBestChain => cases hname
    | hashSyncCheckpoint => cases hname
  | hashBestChain => cases k' <;> first | rfl | cases hname
  | hashSyncCheckpoint => cases k' <;> first | rfl | cases hname

/-- The database of the node. -/
def nodeSchema : Schema DbKey DbKey.Value where
  key := DbKey.serialize
  value := DbKey.serializeValue
  unserialize := DbKey.unserializeValue
  key_injective := DbKey.serialize_injective
  unserialize_value k v := by
    have hhash : ∀ hash : Uint256, (serializeUint256 hash).length < 2 ^ 32 := by
      intro hash
      rw [serializeUint256, length_leBytes]
      decide
    cases k with
    | tx hash =>
      have hread := unserializeFrom_of_reads (CTxIndex.reads v.2) (CTxIndex.length_serialize_lt v.2)
      rw [DbKey.unserializeValue, DbKey.serializeValue, hread, Option.bind_some, dif_pos v.2]
      rfl
    | hashBestChain => exact unserializeFrom_of_reads (reads_uint256 v) (hhash v)
    | hashSyncCheckpoint => exact unserializeFrom_of_reads (reads_uint256 v) (hhash v)

/-! ## The block index

`CTxDB::WriteBlockIndex` and `CTxDB::LoadBlockIndex` on the bytes that are in the database, which are
in the format of `CDiskBlockIndex` (`main.h`). The entries are read from their keys and values, with
the fields `prevoutStake` and `nStakeTime` and the two variables `setStakeSeen` and
`pindexGenesisBlock` that are set on the way. `fRequestShutdown` is off. -/

/-- The block index in memory; `prevoutStake` and `nStakeTime` of a record are under its hash. -/
structure MemIndex where
  mapBlockIndex : LoadedMap
  stake : Uint256 → Stake

/-- What `pprev` of a record leads to. -/
def MemIndex.ancestors (index : MemIndex) (pindex : LoadedIndex) : PFullIndex :=
  followPprev index.mapBlockIndex index.mapBlockIndex.keys.length pindex.pprev

/-! ## The format -/

/-- `CDiskBlockIndex` with the fields of the coinstake. -/
structure DiskIndex extends CDiskBlockIndex where
  prevoutStake : COutPoint
  nStakeTime : UInt32
  deriving DecidableEq

namespace DiskIndex

def isProofOfStake (d : DiskIndex) : Bool := d.nFlags &&& BLOCK_PROOF_OF_STAKE != 0

/-- `CDiskBlockIndex(pindex)`, with the hash that is computed for the key. -/
def new (crypto : Crypto) (index : MemIndex) (hash : Uint256) (pindex : LoadedIndex) : DiskIndex :=
  { CDiskBlockIndex.new crypto pindex.record (index.ancestors pindex) pindex.pnext with
    prevoutStake := (index.stake hash).1, nStakeTime := (index.stake hash).2 }

/-- The fields that are written for proof of stake only. -/
def serializeStake (d : DiskIndex) : List UInt8 :=
  if d.isProofOfStake then
    d.prevoutStake.serialize ++ leBytes 4 d.nStakeTime.toNat ++ serializeUint256 d.hashProofOfStake
  else []

/-- `Serialize` to a stream of the type `SER_DISK`. The first `nVersion` is that of the client. -/
def serialize (d : DiskIndex) : List UInt8 :=
  leBytes 4 CLIENT_VERSION ++ serializeUint256 d.hashNext ++ leBytes 4 d.nFile.toNat ++
    leBytes 4 d.nBlockPos.toNat ++ leBytes 4 (Int32.ofInt d.nHeight).toUInt32.toNat ++
    leBytes 8 d.nMint.toUInt64.toNat ++ leBytes 8 d.nMoneySupply.toUInt64.toNat ++
    leBytes 4 d.nFlags.toNat ++ leBytes 8 d.nStakeModifier.toNat ++ d.serializeStake ++
    leBytes 4 d.nVersion.toUInt32.toNat ++ serializeUint256 d.hashPrev ++
    serializeUint256 d.hashMerkleRoot ++ leBytes 4 d.nTime.toNat ++ leBytes 4 d.nBits.toNat ++
    leBytes 4 d.nNonce.toNat ++ serializeUint256 d.blockHash

end DiskIndex

section Readers

variable [ByteStream σ]

def readHeight : Reader σ Int := do
  let n ← readInt32
  return n.toInt

/-- `prevoutStake`, `nStakeTime` and `hashProofOfStake`, which are cleared where they are not
written. -/
def unserializeStake (nFlags : UInt32) : Reader σ (COutPoint × UInt32 × Uint256) :=
  if nFlags &&& BLOCK_PROOF_OF_STAKE != 0 then do
    let prevoutStake ← COutPoint.unserialize
    let nStakeTime ← readUInt32
    let hashProofOfStake ← readUint256
    return (prevoutStake, nStakeTime, hashProofOfStake)
  else return (COutPoint.null, 0, 0)

/-- The stake fields are only there for proof of stake. -/
def DiskIndex.unserialize : Reader σ DiskIndex := do
  let _nVersion ← readLe 4
  let hashNext ← readUint256
  let nFile ← readUInt32
  let nBlockPos ← readUInt32
  let nHeight ← readHeight
  let nMint ← readInt64
  let nMoneySupply ← readInt64
  let nFlags ← readUInt32
  let nStakeModifier ← readUInt64
  let stake ← unserializeStake nFlags
  let nVersion ← readInt32
  let hashPrev ← readUint256
  let hashMerkleRoot ← readUint256
  let nTime ← readUInt32
  let nBits ← readUInt32
  let nNonce ← readUInt32
  let blockHash ← readUint256
  return { hashNext, nFile, nBlockPos, nHeight, nMint, nMoneySupply, nFlags, nStakeModifier,
           prevoutStake := stake.1, nStakeTime := stake.2.1, hashProofOfStake := stake.2.2,
           nVersion, hashPrev, hashMerkleRoot, nTime, nBits, nNonce, blockHash }

end Readers

/-! ## Writing -/

/-- `string("blockindex")`. -/
def blockIndexType : List UInt8 := [0x62, 0x6c, 0x6f, 0x63, 0x6b, 0x69, 0x6e, 0x64, 0x65, 0x78]

/-- `make_pair(string("blockindex"), hash)`. -/
def blockIndexKey (hash : Uint256) : List UInt8 :=
  serializeBytes blockIndexType ++ serializeUint256 hash

/-- `WriteBlockIndex(CDiskBlockIndex(pindex))`: the key and the value. -/
def MemIndex.writeBlockIndex (crypto : Crypto) (index : MemIndex) (hash : Uint256)
    (pindex : LoadedIndex) : List UInt8 × List UInt8 :=
  let blockindex := DiskIndex.new crypto index hash pindex
  (blockIndexKey blockindex.blockHash, blockindex.serialize)

/-- The entries for all records. -/
def MemIndex.blockEntries (crypto : Crypto) (index : MemIndex) : List (List UInt8 × List UInt8) :=
  index.mapBlockIndex.entries.map fun item => index.writeBlockIndex crypto item.1 item.2

/-! ## Loading -/

/-- The variables that are set while the entries are read. -/
structure LoadState extends MemIndex where
  setStakeSeen : Finset Stake
  pindexGenesisBlock : Option Uint256

/-- Nothing is loaded. A new record has a null `prevoutStake` and `nStakeTime = 0`. -/
def LoadState.empty : LoadState := ⟨⟨∅, fun _ => (COutPoint.null, 0)⟩, ∅, none⟩

section

variable (params : ChainParams) (fUseFastIndex : Bool)

/-- One entry, when it has been unserialized. -/
def loadDiskIndex (nAdjustedTime : Int) (s : LoadState) (diskindex : DiskIndex) :
    Except String LoadState := do
  let blockHash := diskindex.getBlockHash params.crypto fUseFastIndex nAdjustedTime
  let mapBlockIndex ← loadEntry params.crypto fUseFastIndex nAdjustedTime s.mapBlockIndex
    diskindex.toCDiskBlockIndex
  let stake := (diskindex.prevoutStake, diskindex.nStakeTime)
  pure
    { mapBlockIndex
      stake := Function.update s.stake blockHash stake
      setStakeSeen :=
        if diskindex.isProofOfStake then insert stake s.setStakeSeen else s.setStakeSeen
      pindexGenesisBlock :=
        if s.pindexGenesisBlock.isNone && blockHash == params.hashGenesisBlock then some blockHash
        else s.pindexGenesisBlock }

/-- The loop of `LoadBlockIndex` over the entries, up to the first of another type. `nAdjustedTime`
is the time when the entry of a key is read. -/
def loadLoop (nAdjustedTime : List UInt8 → Int) :
    LoadState → List (List UInt8 × List UInt8) → Except String LoadState
  | s, [] => .ok s
  | s, (key, value) :: rest => do
    let (strType, _) ← unserializeString (CDataStream.new key)
    if strType != blockIndexType then .ok s
    else
      let (diskindex, _) ← DiskIndex.unserialize (CDataStream.new value)
      let s ← loadDiskIndex params fUseFastIndex (nAdjustedTime key) s diskindex
      loadLoop nAdjustedTime s rest

end

end NovaCoin
