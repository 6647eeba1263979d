import NovaCoin.Unserialize

/-!
# The wire format

Unserializing what has been serialized gives the value back, from a network buffer and from a
file. Lengths are read up to `MAX_SIZE`, so this is about values whose vectors are no longer. Sizes
are added up in an `unsigned int`, and so is the position in a buffer: a transaction with vectors
within the limit can still be too large for both.
-/

namespace NovaCoin

open List

open Wire (ByteStream Reader Reads)

/-- The vectors of the transaction have at most `MAX_SIZE` elements. -/
structure CTransaction.Bounded (tx : CTransaction) : Prop where
  vin : tx.vin.length ≤ MAX_SIZE
  scriptSig : ∀ txin ∈ tx.vin, txin.scriptSig.length ≤ MAX_SIZE
  vout : tx.vout.length ≤ MAX_SIZE
  scriptPubKey : ∀ txout ∈ tx.vout, txout.scriptPubKey.length ≤ MAX_SIZE

/-- The vectors of the block, and of its transactions, have at most `MAX_SIZE` elements. -/
structure CBlock.Bounded (b : CBlock) : Prop where
  vtx : b.vtx.length ≤ MAX_SIZE
  tx : ∀ tx ∈ b.vtx, tx.Bounded
  vchBlockSig : b.vchBlockSig.length ≤ MAX_SIZE

/-! ## Field by field -/

variable {nType n : Nat}

section Reading

variable {σ : Type} [ByteStream σ]

theorem COutPoint.reads (o : COutPoint) : Reads (σ := σ) COutPoint.unserialize o.serialize o :=
  (reads_uint256 o.hash).bind ((reads_uint32 o.n).map (COutPoint.mk o.hash))

theorem CTxIn.reads {txin : CTxIn} (h : txin.scriptSig.length ≤ MAX_SIZE) :
    Reads (σ := σ) CTxIn.unserialize txin.serialize txin := by
  unfold CTxIn.serialize
  refine txin.prevout.reads.bind ((reads_bytes h).bind ?_)
  exact (reads_uint32 txin.nSequence).map (CTxIn.mk txin.prevout txin.scriptSig)

theorem CTxOut.reads {txout : CTxOut} (h : txout.scriptPubKey.length ≤ MAX_SIZE) :
    Reads (σ := σ) CTxOut.unserialize txout.serialize txout :=
  (reads_int64 txout.nValue).bind ((reads_bytes h).map (CTxOut.mk txout.nValue))

theorem CTransaction.reads (abi : Abi) {tx : CTransaction} (h : tx.Bounded) :
    Reads (σ := σ) (CTransaction.unserialize abi) tx.serialize tx := by
  have hvin := reads_vector (σ := σ) abi.txIn h.vin fun txin hin =>
    CTxIn.reads (h.scriptSig txin hin)
  have hvout := reads_vector (σ := σ) abi.txOut h.vout fun txout hout =>
    CTxOut.reads (h.scriptPubKey txout hout)
  unfold CTransaction.serialize
  simp only [append_assoc]
  refine (reads_int32 tx.nVersion).bind ((reads_uint32 tx.nTime).bind (hvin.bind (hvout.bind ?_)))
  exact (reads_uint32 tx.nLockTime).map (CTransaction.mk tx.nVersion tx.nTime tx.vin tx.vout)

theorem CBlock.reads (abi : Abi) (hType : hasTransactions nType) {b : CBlock} (h : b.Bounded) :
    Reads (σ := σ) (CBlock.unserialize abi nType) (b.serializeAs nType) b := by
  have hvtx := reads_vector (σ := σ) abi.tx h.vtx fun tx htx => CTransaction.reads abi (h.tx tx htx)
  unfold CBlock.serializeAs CBlock.serialize CBlock.serializeHeader CBlock.unserialize
  simp only [hType, if_true, append_assoc]
  refine (reads_int32 b.nVersion).bind ((reads_uint256 b.hashPrevBlock).bind
    ((reads_uint256 b.hashMerkleRoot).bind ((reads_uint32 b.nTime).bind ((reads_uint32 b.nBits).bind
    ((reads_uint32 b.nNonce).bind (hvtx.bind ?_))))))
  exact (reads_bytes h.vchBlockSig).map (CBlock.mk b.nVersion b.hashPrevBlock b.hashMerkleRoot
    b.nTime b.nBits b.nNonce b.vtx)

end Reading

/-! ## The round trip -/

/-- What is asked of a serialization: `stream` and `file` read back exactly the bytes written, the
size is their number as far as an `unsigned int` can say it, and the bytes determine the value. -/
structure RoundTrips {α : Type} (Bounded : α → Prop) (serialize : α → List UInt8)
    (nSerSize : α → UInt32) (stream : Reader CDataStream α) (file : Reader CAutoFile α) : Prop where
  stream : ∀ a, Bounded a → Reads stream (serialize a) a
  file : ∀ a, Bounded a → Reads file (serialize a) a
  size_mod : ∀ a, (nSerSize a).toNat = (serialize a).length % 2 ^ 32
  size : ∀ a, (serialize a).length < 2 ^ 32 → (nSerSize a).toNat = (serialize a).length
  injective : ∀ a b, Bounded a → Bounded b → serialize a = serialize b → a = b

theorem RoundTrips.of_reads {α : Type} {Bounded : α → Prop} {serialize : α → List UInt8}
    {nSerSize : α → UInt32} (unserialize : ∀ σ : Type, [ByteStream σ] → Reader σ α)
    (hreads : ∀ (σ : Type) [ByteStream σ] (a : α), Bounded a →
      Reads (unserialize σ) (serialize a) a)
    (hsize : ∀ a, nSerSize a = UInt32.ofNat (serialize a).length) :
    RoundTrips Bounded serialize nSerSize (unserialize CDataStream) (unserialize CAutoFile) where
  stream := hreads CDataStream
  file := hreads CAutoFile
  size_mod a := by rw [hsize, UInt32.toNat_ofNat']
  size a h := by rw [hsize, UInt32.toNat_ofNat', Nat.mod_eq_of_lt h]
  injective a b ha hb hab := by
    have hra := hreads (List UInt8) a ha
    rw [hab] at hra
    exact hra.unique (hreads (List UInt8) b hb)

theorem hasTransactions_of_network_or_disk (h : nType = SER_NETWORK ∨ nType = SER_DISK) :
    hasTransactions nType := by
  rcases h with rfl | rfl <;> rfl

/-- Transactions and blocks make the round trip, on the network and on disk. -/
theorem serialize_roundTrips (abi : Abi) (nType : Nat)
    (hType : nType = SER_NETWORK ∨ nType = SER_DISK) :
    RoundTrips CTransaction.Bounded CTransaction.serialize CTransaction.nSerSize
        (CTransaction.unserialize abi) (CTransaction.unserialize abi) ∧
      RoundTrips CBlock.Bounded (CBlock.serializeAs nType) CBlock.nSerSize
        (CBlock.unserialize abi nType) (CBlock.unserialize abi nType) := by
  have h := hasTransactions_of_network_or_disk hType
  refine ⟨?_, ?_⟩
  · exact RoundTrips.of_reads (fun _ _ => CTransaction.unserialize abi)
      (fun _ _ _ => CTransaction.reads abi) CTransaction.nSerSize_eq
  · refine RoundTrips.of_reads (fun _ _ => CBlock.unserialize abi nType)
      (fun _ _ _ => CBlock.reads abi h) fun b => ?_
    rw [CBlock.nSerSize_eq, CBlock.serializeAs, h, if_pos rfl]

def Abi.sample : Abi :=
  ⟨⟨72, by decide, by decide⟩, ⟨32, by decide, by decide⟩, ⟨72, by decide, by decide⟩⟩

/-- The form on disk. -/
theorem serialize_roundTrips_disk :
    RoundTrips CTransaction.Bounded CTransaction.serialize CTransaction.nSerSize
        (CTransaction.unserialize Abi.sample) (CTransaction.unserialize Abi.sample) ∧
      RoundTrips CBlock.Bounded (CBlock.serializeAs SER_DISK) CBlock.nSerSize
        (CBlock.unserialize Abi.sample SER_DISK) (CBlock.unserialize Abi.sample SER_DISK) :=
  serialize_roundTrips Abi.sample SER_DISK (.inr rfl)

def paddedTx (n m : Nat) : CTransaction :=
  ⟨1, 0, [], List.replicate n ⟨0, List.replicate m 0⟩, 0⟩

theorem paddedTx_bounded {m : Nat} (hn : n ≤ MAX_SIZE) (hm : m ≤ MAX_SIZE) :
    (paddedTx n m).Bounded where
  vin := Nat.zero_le _
  scriptSig := by
    intro txin hin
    cases hin
  vout := by
    rw [paddedTx, length_replicate]
    exact hn
  scriptPubKey := by
    intro txout hout
    rw [eq_of_mem_replicate hout, length_replicate]
    exact hm

theorem mul_le_length_paddedTx (n m : Nat) : n * m ≤ (paddedTx n m).serialize.length := by
  have hout : m ≤ (CTxOut.mk 0 (replicate m 0)).serialize.length := by
    simp only [CTxOut.serialize, serializeBytes, length_append, length_replicate]
    omega
  have hsum : n * m ≤ n * (CTxOut.mk 0 (replicate m 0)).serialize.length :=
    Nat.mul_le_mul_left n hout
  simp only [paddedTx, CTransaction.serialize, serializeVector, length_append,
    length_flatMap, map_replicate, sum_replicate_nat]
  omega

/-- `nReadPos` never comes to the end of a buffer that is too long for it. -/
theorem CDataStream.vch_read {s s' : CDataStream} {pch : List UInt8} (hlong : 2 ^ 32 ≤ s.vch.length)
    (h : s.read n = .ok (pch, s')) :
    s'.vch = s.vch ∧ s'.nReadPos < 2 ^ 32 := by
  have hnext := Nat.mod_lt (s.nReadPos + n) (Nat.two_pow_pos 32)
  unfold read at h
  simp only [if_neg (show ¬ s.vch.length ≤ (s.nReadPos + n) % 2 ^ 32 by omega)] at h
  cases h
  exact ⟨rfl, hnext⟩

theorem CDataStream.bytes_foldlM_read : ∀ {sizes : List Nat} {s s' : CDataStream},
    2 ^ 32 ≤ s.vch.length → s.nReadPos < 2 ^ 32 →
      sizes.foldlM (fun s n => (s.read n).map (·.2)) s = .ok s' → s'.bytes ≠ []
  | [], s, s', hlong, hpos, h => by
    cases h
    rw [bytes, ne_eq, drop_eq_nil_iff]
    omega
  | n :: sizes, s, s', hlong, hpos, h => by
    rw [foldlM_cons] at h
    cases hread : s.read n with
    | error e =>
      rw [hread] at h
      cases h
    | ok r =>
      obtain ⟨pch, s₁⟩ := r
      rw [hread] at h
      obtain ⟨hvch, hpos₁⟩ := vch_read hlong hread
      exact bytes_foldlM_read (hvch ▸ hlong) hpos₁ h

/-- The size of 128 outputs with the longest scripts is more than four gigabytes, and a `CDataStream`
with them is not read to its end, however the bytes are taken. -/
theorem paddedTx_size_wraps :
    (paddedTx 128 MAX_SIZE).Bounded ∧
      (paddedTx 128 MAX_SIZE).nSerSize.toNat ≠ (paddedTx 128 MAX_SIZE).serialize.length ∧
      ∀ (sizes : List Nat) (s' : CDataStream), sizes.foldlM (fun s n => (s.read n).map (·.2))
        (CDataStream.new (paddedTx 128 MAX_SIZE).serialize) = .ok s' → s'.bytes ≠ [] := by
  have hlt := (paddedTx 128 MAX_SIZE).nSerSize.toNat_lt
  have hlen := mul_le_length_paddedTx 128 MAX_SIZE
  have hmax : 128 * MAX_SIZE = 2 ^ 32 := rfl
  refine ⟨paddedTx_bounded (by decide) (Nat.le_refl _), by omega, fun sizes s' h => ?_⟩
  exact CDataStream.bytes_foldlM_read (hmax ▸ hlen) (by decide) h

end NovaCoin
