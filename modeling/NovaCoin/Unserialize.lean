import NovaCoin.Serialize
import NovaCoin.Streams

/-!
# Sizes and unserializing

The other two readings of the `IMPLEMENT_SERIALIZE` bodies (`serialize.h`, `main.h`): the size,
which is added up in an `unsigned int`, and `Unserialize`, which takes the fields off a stream in
the order in which `Serialize` writes them.
-/

namespace NovaCoin

open List

open Wire (ByteStream Reader Reads)

def MAX_SIZE : Nat := 0x02000000

/-! ## `GetSerializeSize` -/

namespace SerSize

/-- `GetSizeOfCompactSize`. -/
def compactSize (nSize : Nat) : UInt32 :=
  if nSize < 253 then 1
  else if nSize ≤ 0xffff then 1 + 2
  else if nSize ≤ 0xffffffff then 1 + 4
  else 1 + 8

/-- The size of a vector of a fundamental type, here of bytes. -/
def bytes (v : List UInt8) : UInt32 := compactSize v.length + UInt32.ofNat v.length

/-- The size of another vector, element by element. -/
def vector {α : Type} (size : α → UInt32) (v : List α) : UInt32 :=
  v.foldl (fun nSize x => nSize + size x) (compactSize v.length)

end SerSize

def CTxIn.nSerSize (txin : CTxIn) : UInt32 := 36 + SerSize.bytes txin.scriptSig + 4

def CTxOut.nSerSize (txout : CTxOut) : UInt32 := 8 + SerSize.bytes txout.scriptPubKey

def CTransaction.nSerSize (tx : CTransaction) : UInt32 :=
  4 + 4 + SerSize.vector CTxIn.nSerSize tx.vin + SerSize.vector CTxOut.nSerSize tx.vout + 4

def CBlock.nSerSize (b : CBlock) : UInt32 :=
  4 + 32 + 32 + 4 + 4 + 4 + SerSize.vector CTransaction.nSerSize b.vtx + SerSize.bytes b.vchBlockSig

variable {α σ : Type} {serialize : α → List UInt8} {v : List α}

namespace SerSize

theorem compactSize_eq (n : Nat) :
    compactSize n = UInt32.ofNat (NovaCoin.compactSize n).length := by
  unfold compactSize NovaCoin.compactSize
  by_cases h₁ : n < 253
  · rw [if_pos h₁, if_pos h₁]
    rfl
  · by_cases h₂ : n ≤ 0xffff
    · rw [if_neg h₁, if_neg h₁, if_pos h₂, if_pos h₂]
      simp
    · by_cases h₃ : n ≤ 0xffffffff
      · rw [if_neg h₁, if_neg h₁, if_neg h₂, if_neg h₂, if_pos h₃, if_pos h₃]
        simp
      · rw [if_neg h₁, if_neg h₁, if_neg h₂, if_neg h₂, if_neg h₃, if_neg h₃]
        simp

theorem bytes_eq (v : List UInt8) : bytes v = UInt32.ofNat (serializeBytes v).length := by
  rw [bytes, compactSize_eq, serializeBytes, length_append, UInt32.ofNat_add]

variable {size : α → UInt32}

theorem foldl_eq :
    ∀ {v : List α} {n : Nat}, (∀ x ∈ v, size x = UInt32.ofNat (serialize x).length) →
      v.foldl (fun nSize x => nSize + size x) (UInt32.ofNat n) =
        UInt32.ofNat (n + (v.flatMap serialize).length)
  | [], n, _ => by simp
  | x :: v, n, h => by
    rw [forall_mem_cons] at h
    rw [foldl_cons, h.1, ← UInt32.ofNat_add, foldl_eq h.2, flatMap_cons,
      length_append, Nat.add_assoc]

theorem vector_eq (h : ∀ x ∈ v, size x = UInt32.ofNat (serialize x).length) :
    vector size v = UInt32.ofNat (serializeVector serialize v).length := by
  rw [vector, compactSize_eq, foldl_eq h, serializeVector, length_append]

end SerSize

theorem CTxIn.nSerSize_eq (txin : CTxIn) : txin.nSerSize = UInt32.ofNat txin.serialize.length := by
  have hlen : txin.serialize.length = 36 + (serializeBytes txin.scriptSig).length + 4 := by
    simp [serialize, COutPoint.serialize, serializeUint256]
    omega
  rw [nSerSize, SerSize.bytes_eq, hlen, UInt32.ofNat_add, UInt32.ofNat_add]
  rfl

theorem CTxOut.nSerSize_eq (txout : CTxOut) :
    txout.nSerSize = UInt32.ofNat txout.serialize.length := by
  simp [nSerSize, serialize, SerSize.bytes_eq, UInt32.ofNat_add]

/-- The size is the number of bytes written, in 32 bits. -/
theorem CTransaction.nSerSize_eq (tx : CTransaction) :
    tx.nSerSize = UInt32.ofNat tx.serialize.length := by
  have hlen : tx.serialize.length = 8 + (serializeVector CTxIn.serialize tx.vin).length +
      (serializeVector CTxOut.serialize tx.vout).length + 4 := by
    simp [serialize]
    omega
  rw [nSerSize, SerSize.vector_eq fun txin _ => txin.nSerSize_eq,
    SerSize.vector_eq fun txout _ => txout.nSerSize_eq, hlen, UInt32.ofNat_add, UInt32.ofNat_add,
    UInt32.ofNat_add]
  rfl

theorem CBlock.nSerSize_eq (b : CBlock) : b.nSerSize = UInt32.ofNat b.serialize.length := by
  have hlen : b.serialize.length = 80 + (serializeVector CTransaction.serialize b.vtx).length +
      (serializeBytes b.vchBlockSig).length := by
    simp [serialize, serializeHeader, serializeUint256]
    omega
  rw [nSerSize, SerSize.vector_eq fun tx _ => tx.nSerSize_eq, SerSize.bytes_eq, hlen,
    UInt32.ofNat_add, UInt32.ofNat_add]
  rfl

/-! ## Integers and vectors -/

section Readers

variable [ByteStream σ]

/-- `READDATA` of an unsigned integer of `w` bytes. -/
def readLe (w : Nat) : Reader σ Nat := do
  let b ← Wire.take w
  return leNat b

def readUInt32 : Reader σ UInt32 := do
  let n ← readLe 4
  return UInt32.ofNat n

def readInt32 : Reader σ Int32 := do
  let n ← readLe 4
  return (UInt32.ofNat n).toInt32

def readUInt64 : Reader σ UInt64 := do
  let n ← readLe 8
  return UInt64.ofNat n

def readInt64 : Reader σ Int64 := do
  let n ← readLe 8
  return (UInt64.ofNat n).toInt64

def readUint256 : Reader σ Uint256 := do
  let n ← readLe 32
  return BitVec.ofNat 256 n

/-- `ReadCompactSize`. A length need not be written in the shortest form. -/
def readCompactSize : Reader σ Nat := do
  let chSize ← readLe 1
  let nSizeRet ←
    if chSize < 253 then pure chSize
    else if chSize = 253 then readLe 2
    else if chSize = 254 then readLe 4
    else readLe 8
  if MAX_SIZE < nSizeRet then throw "ReadCompactSize() : size too large"
  else return nSizeRet

/-- `Unserialize` of a string. -/
def unserializeString : Reader σ (List UInt8) := do
  let nSize ← readCompactSize
  if nSize = 0 then return [] else Wire.take nSize

/-- `Unserialize` of a byte vector, in blocks of five million. -/
def unserializeBytes : Reader σ (List UInt8) := do
  let nSize ← readCompactSize
  Wire.blocks 5000000 (by decide) nSize

/-- `sizeof(T)` of the elements of a vector, which limits the room made for them. -/
structure ElemSize where
  bytes : Nat
  pos : 0 < bytes
  le : bytes ≤ 5000000

/-- `Unserialize` of a vector of another type, resized by `5000000 / sizeof(T)` at a time. -/
def unserializeVector {α : Type} (sizeof : ElemSize) (unserialize : Reader σ α) :
    Reader σ (List α) := do
  let nSize ← readCompactSize
  Wire.chunked (5000000 / sizeof.bytes) (Nat.div_pos sizeof.le sizeof.pos) unserialize nSize 0

end Readers

theorem leBytes_succ (w n : Nat) : leBytes (w + 1) n = UInt8.ofNat n :: leBytes w (n / 256) := by
  simp only [leBytes, range_succ_eq_map, map_cons, map_map, Nat.mul_zero,
    Nat.shiftRight_zero, cons.injEq, true_and]
  refine map_congr_left fun i _ => ?_
  simp only [Function.comp_apply, Nat.succ_eq_add_one, Nat.mul_add, Nat.mul_one]
  rw [Nat.add_comm, Nat.shiftRight_add, Nat.shiftRight_eq_div_pow n 8]

theorem leNat_leBytes : ∀ w n : Nat, leNat (leBytes w n) = n % 256 ^ w
  | 0, n => by simp [leBytes, leNat, Nat.mod_one]
  | w + 1, n => by
    have ih := leNat_leBytes w (n / 256)
    rw [leBytes_succ]
    show (UInt8.ofNat n).toNat + 256 * leNat (leBytes w (n / 256)) = _
    rw [ih, UInt8.toNat_ofNat', show 256 ^ (w + 1) = 256 * 256 ^ w from Nat.pow_succ',
      Nat.mod_mul (a := 256) (b := 256 ^ w)]

section Rules

variable [ByteStream σ]

theorem reads_le {w n : Nat} (h : n < 256 ^ w) : Reads (σ := σ) (readLe w) (leBytes w n) n := by
  have ht := (Reads.take (σ := σ) (leBytes w n)).map leNat
  rwa [length_leBytes, leNat_leBytes, Nat.mod_eq_of_lt h] at ht

theorem reads_uint32 (n : UInt32) : Reads (σ := σ) readUInt32 (leBytes 4 n.toNat) n := by
  have h := (reads_le (σ := σ) (w := 4) n.toNat_lt).map UInt32.ofNat
  rwa [UInt32.ofNat_toNat] at h

theorem reads_int32 (n : Int32) : Reads (σ := σ) readInt32 (leBytes 4 n.toUInt32.toNat) n := by
  have h := (reads_le (σ := σ) (w := 4) n.toUInt32.toNat_lt).map fun m => (UInt32.ofNat m).toInt32
  rwa [UInt32.ofNat_toNat] at h

theorem reads_uint64 (n : UInt64) : Reads (σ := σ) readUInt64 (leBytes 8 n.toNat) n := by
  have h := (reads_le (σ := σ) (w := 8) n.toNat_lt).map UInt64.ofNat
  rwa [UInt64.ofNat_toNat] at h

theorem reads_int64 (n : Int64) : Reads (σ := σ) readInt64 (leBytes 8 n.toUInt64.toNat) n := by
  have h := (reads_le (σ := σ) (w := 8) n.toUInt64.toNat_lt).map fun m => (UInt64.ofNat m).toInt64
  rwa [UInt64.ofNat_toNat] at h

theorem reads_uint256 (h : Uint256) : Reads (σ := σ) readUint256 (serializeUint256 h) h := by
  have hr := (reads_le (σ := σ) (w := 32) h.isLt).map (BitVec.ofNat 256)
  rwa [BitVec.ofNat_toNat] at hr

/-- The first byte of a size, which says how many follow. -/
theorem reads_byte (c : UInt8) : Reads (σ := σ) (readLe 1) [c] c.toNat := by
  have hc := reads_le (σ := σ) (w := 1) (n := c.toNat) c.toNat_lt
  rwa [show leBytes 1 c.toNat = [c] by simp [leBytes]] at hc

theorem reads_compactSize {n : Nat} (h : n ≤ MAX_SIZE) :
    Reads (σ := σ) readCompactSize (compactSize n) n := by
  have hn : n < 2 ^ 32 := Nat.lt_of_le_of_lt h (by decide)
  have hlast : Reads (σ := σ) (if MAX_SIZE < n then throw "ReadCompactSize() : size too large"
      else pure n) [] n := by
    rw [if_neg (Nat.not_lt.mpr h)]
    exact Reads.pure n
  unfold readCompactSize compactSize
  by_cases h₁ : n < 253
  · rw [if_pos h₁]
    have hc : (UInt8.ofNat n).toNat = n := by
      rw [UInt8.toNat_ofNat', Nat.mod_eq_of_lt (by omega)]
    refine (reads_byte (UInt8.ofNat n)).bind ?_
    rw [hc, if_pos h₁]
    exact (Reads.pure n).bind hlast
  · rw [if_neg h₁]
    by_cases h₂ : n ≤ 0xffff
    · rw [if_pos h₂]
      exact (reads_byte 253).bind ((reads_le (by omega)).bind hlast)
    · rw [if_neg h₂, if_pos (by omega)]
      exact (reads_byte 254).bind ((reads_le (by omega)).bind hlast)

theorem reads_bytes {v : List UInt8} (h : v.length ≤ MAX_SIZE) :
    Reads (σ := σ) unserializeBytes (serializeBytes v) v :=
  (reads_compactSize h).bind (Reads.blocks 5000000 (by decide) v)

theorem reads_string {v : List UInt8} (h : v.length ≤ MAX_SIZE) :
    Reads (σ := σ) unserializeString (serializeBytes v) v := by
  refine (reads_compactSize h).bind ?_
  split
  · next hzero =>
    rw [eq_nil_of_length_eq_zero hzero]
    exact Reads.pure []
  · exact Reads.take v

theorem reads_vector (sizeof : ElemSize) {unserialize : Reader σ α} (h : v.length ≤ MAX_SIZE)
    (helem : ∀ x ∈ v, Reads unserialize (serialize x) x) :
    Reads (unserializeVector sizeof unserialize) (serializeVector serialize v) v :=
  (reads_compactSize h).bind (Reads.chunked helem)

end Rules

/-! ## Transactions and blocks -/

/-- The sizes in memory of the classes that are kept in vectors. -/
structure Abi where
  txIn : ElemSize
  txOut : ElemSize
  tx : ElemSize

section Objects

variable [ByteStream σ]

def COutPoint.unserialize : Reader σ COutPoint := do
  let hash ← readUint256
  let n ← readUInt32
  return ⟨hash, n⟩

def CTxIn.unserialize : Reader σ CTxIn := do
  let prevout ← COutPoint.unserialize
  let scriptSig ← unserializeBytes
  let nSequence ← readUInt32
  return ⟨prevout, scriptSig, nSequence⟩

def CTxOut.unserialize : Reader σ CTxOut := do
  let nValue ← readInt64
  let scriptPubKey ← unserializeBytes
  return ⟨nValue, scriptPubKey⟩

def CTransaction.unserialize (abi : Abi) : Reader σ CTransaction := do
  let nVersion ← readInt32
  let nTime ← readUInt32
  let vin ← unserializeVector abi.txIn CTxIn.unserialize
  let vout ← unserializeVector abi.txOut CTxOut.unserialize
  let nLockTime ← readUInt32
  return ⟨nVersion, nTime, vin, vout, nLockTime⟩

end Objects

def SER_NETWORK : Nat := 1 <<< 0
def SER_DISK : Nat := 1 <<< 1
def SER_GETHASH : Nat := 1 <<< 2
def SER_BLOCKHEADERONLY : Nat := 1 <<< 17

/-- Whether a block of this type goes on behind its header. -/
def hasTransactions (nType : Nat) : Bool := nType &&& (SER_GETHASH ||| SER_BLOCKHEADERONLY) == 0

/-- `Serialize` of a block to a stream of the given type. -/
def CBlock.serializeAs (nType : Nat) (b : CBlock) : List UInt8 :=
  if hasTransactions nType then b.serialize else b.serializeHeader

/-- `Unserialize` of a block; what the type of the stream leaves out is cleared. -/
def CBlock.unserialize {σ : Type} [ByteStream σ] (abi : Abi) (nType : Nat) : Reader σ CBlock := do
  let nVersion ← readInt32
  let hashPrevBlock ← readUint256
  let hashMerkleRoot ← readUint256
  let nTime ← readUInt32
  let nBits ← readUInt32
  let nNonce ← readUInt32
  let header : CBlock :=
    ⟨nVersion, hashPrevBlock, hashMerkleRoot, nTime, nBits, nNonce, [], []⟩
  if hasTransactions nType then
    let vtx ← unserializeVector abi.tx (CTransaction.unserialize abi)
    let vchBlockSig ← unserializeBytes
    return { header with vtx, vchBlockSig }
  else return header

end NovaCoin
