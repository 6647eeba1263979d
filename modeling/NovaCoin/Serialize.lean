import Mathlib.Algebra.GroupWithZero.Nat
import NovaCoin.Primitives

/-!
# Serialization and hashes

The byte form of transactions and blocks (`serialize.h`), of which the sizes and hashes are
taken, and the functions from outside this repository that the model is parametrised by.
-/

namespace NovaCoin

/-- `w` little-endian bytes. -/
def leBytes (w n : Nat) : List UInt8 := (List.range w).map fun i => UInt8.ofNat (n >>> (8 * i))

/-- The value of little-endian bytes. -/
def leNat (v : List UInt8) : Nat := v.foldr (fun b n => b.toNat + 256 * n) 0

@[simp] theorem length_leBytes (w n : Nat) : (leBytes w n).length = w := by
  simp [leBytes]

/-- `WriteCompactSize`. -/
def compactSize (n : Nat) : List UInt8 :=
  if n < 253 then [UInt8.ofNat n]
  else if n ≤ 0xffff then 253 :: leBytes 2 n
  else if n ≤ 0xffffffff then 254 :: leBytes 4 n
  else 255 :: leBytes 8 n

theorem length_compactSize_le (n : Nat) : (compactSize n).length ≤ 9 := by
  unfold compactSize
  repeat' split
  all_goals simp

/-- A vector is its length and its elements. -/
def serializeVector {α : Type} (serialize : α → List UInt8) (v : List α) : List UInt8 :=
  compactSize v.length ++ v.flatMap serialize

/-- Byte vectors, written in one piece. -/
def serializeBytes (v : List UInt8) : List UInt8 := compactSize v.length ++ v

def serializeUint256 (h : Uint256) : List UInt8 := leBytes 32 h.toNat

def COutPoint.serialize (o : COutPoint) : List UInt8 :=
  serializeUint256 o.hash ++ leBytes 4 o.n.toNat

def CTxIn.serialize (txin : CTxIn) : List UInt8 :=
  txin.prevout.serialize ++ serializeBytes txin.scriptSig ++ leBytes 4 txin.nSequence.toNat

def CTxOut.serialize (txout : CTxOut) : List UInt8 :=
  leBytes 8 txout.nValue.toUInt64.toNat ++ serializeBytes txout.scriptPubKey

def CTransaction.serialize (tx : CTransaction) : List UInt8 :=
  leBytes 4 tx.nVersion.toUInt32.toNat ++ leBytes 4 tx.nTime.toNat ++
    serializeVector CTxIn.serialize tx.vin ++ serializeVector CTxOut.serialize tx.vout ++
    leBytes 4 tx.nLockTime.toNat

/-- The block up to `vtx`, as `SER_GETHASH` and `SER_BLOCKHEADERONLY` write it. -/
def CBlock.serializeHeader (b : CBlock) : List UInt8 :=
  leBytes 4 b.nVersion.toUInt32.toNat ++ serializeUint256 b.hashPrevBlock ++
    serializeUint256 b.hashMerkleRoot ++ leBytes 4 b.nTime.toNat ++ leBytes 4 b.nBits.toNat ++
    leBytes 4 b.nNonce.toNat

def CBlock.serialize (b : CBlock) : List UInt8 :=
  b.serializeHeader ++ serializeVector CTransaction.serialize b.vtx ++ serializeBytes b.vchBlockSig

/-- `::GetSerializeSize` of a transaction. -/
def CTransaction.getSerializeSize (tx : CTransaction) : Nat := tx.serialize.length

/-- `::GetSerializeSize` of a block. -/
def CBlock.getSerializeSize (b : CBlock) : Nat := b.serialize.length

theorem CTransaction.getSerializeSize_pos (tx : CTransaction) : 0 < tx.getSerializeSize := by
  simp only [getSerializeSize, serialize, List.length_append, length_leBytes]
  omega

/-- The transactions of a block fit into its size. -/
theorem CBlock.sum_getSerializeSize_le (b : CBlock) :
    (b.vtx.map (·.getSerializeSize)).sum ≤ b.getSerializeSize := by
  simp only [getSerializeSize, serialize, serializeVector, List.length_append, List.length_flatMap,
    CTransaction.getSerializeSize]
  omega

def getSizeOfCompactSize (n : Nat) : Nat := (compactSize n).length

/-! ## Functions from outside -/

/-- The libraries' hash functions and signature check. `verify` is `CPubKey::Verify` on a key, a
hash and a DER signature. -/
structure Crypto where
  sha256 : List UInt8 → List UInt8
  sha1 : List UInt8 → List UInt8
  ripemd160 : List UInt8 → List UInt8
  scryptBlockHash : List UInt8 → Uint256
  verify : Valtype → Uint256 → Valtype → Bool

namespace Crypto

variable (C : Crypto)

/-- `Hash`: twice SHA-256. -/
def hash (v : List UInt8) : Uint256 := BitVec.ofNat 256 (leNat (C.sha256 (C.sha256 v)))

def hash160 (v : List UInt8) : List UInt8 := C.ripemd160 (C.sha256 v)

/-- `CTransaction::GetHash`. -/
def txHash (tx : CTransaction) : Uint256 := C.hash tx.serialize

/-- `CBlock::GetHash`. -/
def blockHash (b : CBlock) : Uint256 := C.scryptBlockHash b.serializeHeader

/-- `Hash` of two nodes of a Merkle tree. -/
def pairHash (p : Uint256 × Uint256) : Uint256 :=
  C.hash (serializeUint256 p.1 ++ serializeUint256 p.2)

/-- A polynomial checksum for the hash functions, and signatures that are always right: for concrete
examples. -/
def sample : Crypto :=
  let checksum (w : Nat) (v : List UInt8) : List UInt8 :=
    leBytes w (v.foldl (fun n b => (n * 257 + b.toNat + 1) % 2 ^ 256) 1)
  { sha256 := checksum 32, sha1 := checksum 20, ripemd160 := checksum 20,
    scryptBlockHash := fun _ => 0, verify := fun _ _ _ => true }

end Crypto

end NovaCoin
