import NovaCoin.Infra.SpentIndex

/-!
# Transactions, blocks and their index records

The data model of `main.h`, with the small predicates that are defined inline there.

* `uint256` is `BitVec 256`, and the machine integers are Lean's own fixed-width types.
* `CTxIndex` is the entry type of `Infra/SpentIndex.lean` at the positions used here.
* A `CBlockIndex*` is the list of records met by following `pprev` from it; `NULL` is `[]`.
  `pprev`, `nHeight` and `nChainTrust` never change once a record is in `mapBlockIndex`, so
  nothing is lost; `pnext`, which does change, is kept apart (`BestChain.lean`).
-/

namespace NovaCoin

abbrev Uint256 := BitVec 256

/-- `valtype`: the byte strings on the script stack. -/
abbrev Valtype := List UInt8

abbrev CScript := List UInt8

/-! ## Amounts and times -/

def COIN : Int64 := 1000000
def CENT : Int64 := 10000
def MAX_MONEY : Int64 := 9223372036854775807
def MAX_MINT_PROOF_OF_WORK : Int64 := 100 * COIN
def MAX_MINT_PROOF_OF_STAKE : Int64 := 1 * COIN
def MIN_TX_FEE : Int64 := CENT / 10
def MIN_RELAY_TX_FEE : Int64 := CENT / 50

def MAX_BLOCK_SIZE : Nat := 1000000
def MAX_BLOCK_SIZE_GEN : Nat := MAX_BLOCK_SIZE / 2
def MAX_BLOCK_SIGOPS : Nat := MAX_BLOCK_SIZE / 50

def nOneHour : Int := 60 * 60
def nOneDay : Int := 24 * 60 * 60
def nOneWeek : Int := 7 * 24 * 60 * 60

def TARGETS_SWITCH_TIME : UInt32 := 1374278400
def CHECKLOCKTIMEVERIFY_SWITCH_TIME : UInt32 := 1461110400
def CHECKSEQUENCEVERIFY_SWITCH_TIME : UInt32 := 1645797620

def moneyRange (nValue : Int64) : Bool := 0 ≤ nValue && nValue ≤ MAX_MONEY

def pastDrift (nTime : Int) : Int := nTime - 2 * nOneHour
def futureDrift (nTime : Int) : Int := nTime + 2 * nOneHour

/-! ## Positions and outpoints -/

structure CDiskTxPos where
  nFile : UInt32
  nBlockPos : UInt32
  nTxPos : UInt32
  deriving DecidableEq, Repr

/-- `CDiskTxPos::SetNull`. -/
def CDiskTxPos.null : CDiskTxPos := ⟨0xffffffff, 0, 0⟩

def CDiskTxPos.isNull (p : CDiskTxPos) : Bool := p.nFile == 0xffffffff

/-- The position `FetchInputs` reads as "in the memory pool". -/
def CDiskTxPos.inMemory : CDiskTxPos := ⟨1, 1, 1⟩

structure COutPoint where
  hash : Uint256
  n : UInt32
  deriving DecidableEq, Repr

/-- `COutPoint::SetNull`. -/
def COutPoint.null : COutPoint := ⟨0, 0xffffffff⟩

def COutPoint.isNull (o : COutPoint) : Bool := o.hash == 0 && o.n == 0xffffffff

/-- The outpoint as a key and an output number of the transaction index. -/
def COutPoint.slot (o : COutPoint) : Uint256 × Nat := (o.hash, o.n.toNat)

theorem COutPoint.slot_injective : Function.Injective COutPoint.slot := by
  rintro ⟨h, n⟩ ⟨h', n'⟩ he
  simp only [slot, Prod.mk.injEq] at he
  rw [he.1, UInt32.toNat_inj.mp he.2]

/-! ## Transactions -/

structure CTxIn where
  prevout : COutPoint
  scriptSig : CScript
  nSequence : UInt32
  deriving DecidableEq, Repr

structure CTxOut where
  nValue : Int64
  scriptPubKey : CScript
  deriving DecidableEq, Repr

/-- `CTxOut::SetNull`. -/
def CTxOut.null : CTxOut := ⟨-1, []⟩

/-- `CTxOut::SetEmpty`. -/
def CTxOut.empty : CTxOut := ⟨0, []⟩

def CTxOut.isEmpty (o : CTxOut) : Bool := o.nValue == 0 && o.scriptPubKey.isEmpty

/-- A transaction. `nDoS` is not part of it: the score is in the error a check returns. -/
structure CTransaction where
  nVersion : Int32
  nTime : UInt32
  vin : List CTxIn
  vout : List CTxOut
  nLockTime : UInt32
  deriving DecidableEq, Repr

namespace CTransaction

def isCoinBase (tx : CTransaction) : Bool :=
  match tx.vin with
  | [txin] => txin.prevout.isNull && 1 ≤ tx.vout.length
  | _ => false

/-- The coinstake transaction is marked with the first output empty. -/
def isCoinStake (tx : CTransaction) : Bool :=
  match tx.vin, tx.vout with
  | txin :: _, out₀ :: _ :: _ => !txin.prevout.isNull && out₀.isEmpty
  | _, _ => false

theorem isCoinStake_of_isCoinBase {tx : CTransaction} (h : tx.isCoinBase) :
    tx.isCoinStake = false := by
  unfold isCoinBase at h
  unfold isCoinStake
  split at h
  · next txin hv =>
    simp only [Bool.and_eq_true] at h
    rw [hv]
    split
    · next he _ =>
      simp only [List.cons.injEq] at he
      rw [← he.1, h.1]
      rfl
    · rfl
  · cases h

/-- The outpoints whose spent pointers the transaction takes over. -/
def spends (tx : CTransaction) : List COutPoint :=
  if tx.isCoinBase then [] else tx.vin.map (·.prevout)

end CTransaction

/-! ## The transaction index -/

/-- A txdb record: the position of a transaction and of the transactions that spend it. -/
abbrev CTxIndex := SpentIndex.Entry CDiskTxPos

/-- `CTxIndex(posIn, nOutputs)`. -/
def CTxIndex.new (pos : CDiskTxPos) (nOutputs : Nat) : CTxIndex :=
  ⟨pos, List.replicate nOutputs CDiskTxPos.null⟩

/-! ## Blocks -/

structure CBlock where
  nVersion : Int32
  hashPrevBlock : Uint256
  hashMerkleRoot : Uint256
  nTime : UInt32
  nBits : UInt32
  nNonce : UInt32
  vtx : List CTransaction
  vchBlockSig : List UInt8
  deriving DecidableEq, Repr

namespace CBlock

def getBlockTime (b : CBlock) : Int := b.nTime.toNat

def isProofOfStake (b : CBlock) : Bool :=
  match b.vtx with
  | _ :: tx :: _ => tx.isCoinStake
  | _ => false

def isProofOfWork (b : CBlock) : Bool := !b.isProofOfStake

def getMaxTransactionTime (b : CBlock) : Int :=
  b.vtx.foldl (fun m tx => max m (tx.nTime.toNat : Int)) 0

end CBlock

/-- The fields of a block index record that the modelled functions read. -/
structure CBlockIndex where
  hashBlock : Uint256
  nFile : UInt32
  nBlockPos : UInt32
  nChainTrust : Uint256
  nHeight : Int
  nMint : Int64
  nMoneySupply : Int64
  fProofOfStake : Bool
  nTime : UInt32
  nBits : UInt32
  deriving DecidableEq, Repr

namespace CBlockIndex

def getBlockTime (i : CBlockIndex) : Int := i.nTime.toNat

def isProofOfStake (i : CBlockIndex) : Bool := i.fProofOfStake

def isProofOfWork (i : CBlockIndex) : Bool := !i.fProofOfStake

end CBlockIndex

/-- `CBlockIndex*`: the records from a block down to the root, following `pprev`. -/
abbrev PIndex := List CBlockIndex

end NovaCoin
