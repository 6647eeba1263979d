import Mathlib.Data.List.AList
import Mathlib.Data.List.Sort
import NovaCoin.Infra.Decimal
import NovaCoin.Unserialize

/-!
# Records of the wallet file

`CWalletTx` and `CAccountingEntry` as they are written to the wallet file and read back (`wallet.h`).
Both keep some of their fields as texts in `mapValue`, which is changed for that while the object is
written. A string is its bytes. `Serialize` gives the bytes and the object after the call.
-/

namespace NovaCoin

open Wire (ByteStream Reader Reads)

/-! ## Texts and maps -/

def i64tostr (n : Int64) : List UInt8 := Decimal.printInt n.toInt

/-- `strtoll`, which stays within the range. -/
def atoi64 (s : List UInt8) : Int64 :=
  Int64.ofInt (max Int64.minValue.toInt (min Int64.maxValue.toInt (Decimal.scanInt s)))

/-- `mapValue_t`. -/
abbrev MapValue := Std.ExtTreeMap (List UInt8) (List UInt8)

namespace MapValue

/-- The bytes of a key. -/
def key (name : String) : List UInt8 := name.toList.map fun c => UInt8.ofNat c.toNat

def serializePair (p : List UInt8 × List UInt8) : List UInt8 :=
  serializeBytes p.1 ++ serializeBytes p.2

def serialize (m : MapValue) : List UInt8 := serializeVector serializePair m.toList

/-- Pairs inserted one after the other; a key that is there stays. -/
def ofPairs (pairs : List (List UInt8 × List UInt8)) : MapValue :=
  pairs.foldl (fun m p => m.insertIfNew p.1 p.2) ∅

variable {σ : Type} [ByteStream σ]

def unserializePair : Reader σ (List UInt8 × List UInt8) := do
  let first ← unserializeString
  let second ← unserializeString
  return (first, second)

def unserialize : Reader σ MapValue := do
  let nSize ← readCompactSize
  let pairs ← Wire.many unserializePair nSize
  return ofPairs pairs

end MapValue

/-! ## Accounting entries -/

/-- The fields in the value of a record; `strAccount` and `nEntryNo` are in its key. -/
structure CAccountingEntry where
  nCreditDebit : Int64
  nTime : Int64
  strOtherAccount : List UInt8
  strComment : List UInt8
  mapValue : MapValue
  nOrderPos : Int64
  _ssExtra : List UInt8

namespace CAccountingEntry

/-- `mapValue` while the entry is written. -/
def writtenMap (e : CAccountingEntry) : MapValue :=
  if e.nOrderPos ≠ -1 then e.mapValue.insert (MapValue.key "n") (i64tostr e.nOrderPos)
  else e.mapValue

/-- `strComment` while the entry is written. -/
def writtenComment (e : CAccountingEntry) : List UInt8 :=
  if e.writtenMap.isEmpty && e._ssExtra.isEmpty then e.strComment
  else e.strComment ++ 0 :: (e.writtenMap.serialize ++ e._ssExtra)

/-- `if (!(nType & SER_GETHASH)) READWRITE(nVersion)`. -/
def writeVersion (nType : Nat) (nVersion : Int32) : List UInt8 :=
  if nType &&& SER_GETHASH = 0 then leBytes 4 nVersion.toUInt32.toNat else []

def readVersion {σ : Type} [ByteStream σ] (nType : Nat) : Reader σ Unit :=
  if nType &&& SER_GETHASH = 0 then do
    let _ ← readInt32
    return ()
  else return ()

def serialize (nType : Nat) (nVersion : Int32) (e : CAccountingEntry) :
    List UInt8 × CAccountingEntry :=
  (writeVersion nType nVersion ++
      (leBytes 8 e.nCreditDebit.toUInt64.toNat ++ (leBytes 8 e.nTime.toUInt64.toNat ++
        (serializeBytes e.strOtherAccount ++ serializeBytes e.writtenComment))),
    { e with
      strComment := e.writtenComment.takeWhile (· ≠ 0)
      mapValue := e.writtenMap.erase (MapValue.key "n") })

/-- What is behind the separator in `strComment`: the map and `_ssExtra`. -/
def splitComment (strComment : List UInt8) : Except String (MapValue × List UInt8) :=
  match strComment.dropWhile (· ≠ 0) with
  | [] => .ok (∅, [])
  | _ :: rest => do
    let (mapValue, ss) ← MapValue.unserialize (CDataStream.new rest)
    return (mapValue, ss.bytes)

/-- `Unserialize` into a new entry. -/
def unserialize {σ : Type} [ByteStream σ] (nType : Nat) : Reader σ CAccountingEntry := do
  readVersion nType
  let nCreditDebit ← readInt64
  let nTime ← readInt64
  let strOtherAccount ← unserializeString
  let strComment ← unserializeString
  let (mapValue, _ssExtra) ← splitComment strComment
  return {
    nCreditDebit, nTime, strOtherAccount, _ssExtra
    strComment := strComment.takeWhile (· ≠ 0)
    mapValue := mapValue.erase (MapValue.key "n")
    nOrderPos := (mapValue[MapValue.key "n"]?.map atoi64).getD (-1) }

end CAccountingEntry

/-! ## Transactions of the wallet -/

/-- A `CMerkleTx` in a file. -/
structure CMerkleTxRecord where
  tx : CTransaction
  hashBlock : Uint256
  vMerkleBranch : List Uint256
  nIndex : Int32

/-- The sizes in memory of the classes that are kept in vectors. -/
structure WalletAbi extends Abi where
  merkleTx : ElemSize
  stringPair : ElemSize

namespace CMerkleTxRecord

theorem hashSize_pos : 0 < 32 := by decide

theorem hashSize_le : 32 ≤ 5000000 := by decide

def serialize (r : CMerkleTxRecord) : List UInt8 :=
  r.tx.serialize ++ (serializeUint256 r.hashBlock ++
    (serializeVector serializeUint256 r.vMerkleBranch ++ leBytes 4 r.nIndex.toUInt32.toNat))

def unserialize {σ : Type} [ByteStream σ] (abi : Abi) : Reader σ CMerkleTxRecord := do
  let tx ← CTransaction.unserialize abi
  let hashBlock ← readUint256
  let vMerkleBranch ← unserializeVector ⟨32, hashSize_pos, hashSize_le⟩ readUint256
  let nIndex ← readInt32
  return ⟨tx, hashBlock, vMerkleBranch, nIndex⟩

end CMerkleTxRecord

/-- A `CWalletTx` in a file. `fFromMe` and the entries of `vfSpent` are `char`s. -/
structure CWalletTxRecord extends CMerkleTxRecord where
  vtxPrev : List CMerkleTxRecord
  mapValue : MapValue
  vOrderForm : List (List UInt8 × List UInt8)
  fTimeReceivedIsTxTime : UInt32
  nTimeReceived : UInt32
  nTimeSmart : UInt32
  fFromMe : UInt8
  strFromAccount : List UInt8
  vfSpent : List UInt8
  nOrderPos : Int64

namespace CWalletTxRecord

open MapValue (key)

/-- `mapValue` while the transaction is written. -/
def writtenMap (r : CWalletTxRecord) : MapValue :=
  let m := (r.mapValue.insert (key "fromaccount") r.strFromAccount).insert (key "spent")
    (r.vfSpent.map fun f => if f ≠ 0 then 49 else 48)
  let m := if r.nOrderPos ≠ -1 then m.insert (key "n") (i64tostr r.nOrderPos) else m
  if r.nTimeSmart ≠ 0 then m.insert (key "timesmart") (Decimal.print r.nTimeSmart.toNat) else m

/-- `mapValue` without the keys that are used for other fields. -/
def cleared (m : MapValue) : MapValue :=
  ((((m.erase (key "fromaccount")).erase (key "version")).erase (key "spent")).erase
    (key "n")).erase (key "timesmart")

def serialize (r : CWalletTxRecord) : List UInt8 × CWalletTxRecord :=
  (r.toCMerkleTxRecord.serialize ++ (serializeVector CMerkleTxRecord.serialize r.vtxPrev ++
      (r.writtenMap.serialize ++ (serializeVector MapValue.serializePair r.vOrderForm ++
        (leBytes 4 r.fTimeReceivedIsTxTime.toNat ++ (leBytes 4 r.nTimeReceived.toNat ++
          (leBytes 1 r.fFromMe.toNat ++ leBytes 1 (if r.vfSpent.any (· ≠ 0) then 1 else 0))))))),
    { r with mapValue := cleared r.writtenMap })

/-- The fields of a record that has been read. -/
def ofRead (merkleTx : CMerkleTxRecord) (vtxPrev : List CMerkleTxRecord) (mapValue : MapValue)
    (vOrderForm : List (List UInt8 × List UInt8)) (fTimeReceivedIsTxTime nTimeReceived : UInt32)
    (fFromMe fSpent : UInt8) : CWalletTxRecord where
  toCMerkleTxRecord := merkleTx
  vtxPrev := vtxPrev
  mapValue := cleared mapValue
  vOrderForm := vOrderForm
  fTimeReceivedIsTxTime := fTimeReceivedIsTxTime
  nTimeReceived := nTimeReceived
  nTimeSmart := (mapValue[key "timesmart"]?.map fun s => (atoi64 s).toUInt64.toUInt32).getD 0
  fFromMe := fFromMe
  strFromAccount := mapValue[key "fromaccount"]?.getD []
  vfSpent := match mapValue[key "spent"]? with
    | some s => s.map fun c => if c ≠ 48 then 1 else 0
    | none => List.replicate merkleTx.tx.vout.length fSpent
  nOrderPos := (mapValue[key "n"]?.map atoi64).getD (-1)

def unserialize {σ : Type} [ByteStream σ] (abi : WalletAbi) : Reader σ CWalletTxRecord := do
  let merkleTx ← CMerkleTxRecord.unserialize abi.toAbi
  let vtxPrev ← unserializeVector abi.merkleTx (CMerkleTxRecord.unserialize abi.toAbi)
  let mapValue ← MapValue.unserialize
  let vOrderForm ← unserializeVector abi.stringPair MapValue.unserializePair
  let fTimeReceivedIsTxTime ← readUInt32
  let nTimeReceived ← readUInt32
  let fFromMe ← readLe 1
  let fSpent ← readLe 1
  return ofRead merkleTx vtxPrev mapValue vOrderForm fTimeReceivedIsTxTime nTimeReceived
    (UInt8.ofNat fFromMe) (UInt8.ofNat fSpent)

end CWalletTxRecord

/-! ## The order of the items

`CWalletDB::ReorderTransactions` (`walletdb.cpp`), which gives a position to the transactions and
accounting entries of an old wallet. The time of an item is `nTimeReceived` of a transaction and
`nTime` of an entry. Positions are `int64_t`; where a sum overflows, which is undefined, there is no
result. -/

/-- A transaction, or an accounting entry with its account. `-1` is no position. -/
structure OrderItem where
  strAccount : Option String
  nTime : Int
  nOrderPos : Int
  deriving DecidableEq

structure OrderWallet where
  mapWallet : List OrderItem
  acentries : List OrderItem

/-- `nOrderPosNext`, `nOrderPosOffsets`, and the items met so far with their new positions, the last
first. -/
structure Reorder where
  nOrderPosNext : Int
  nOrderPosOffsets : List Int
  done : List (OrderItem × Int)

namespace Reorder

def init : Reorder := ⟨0, [], []⟩

/-- How many new items are at or before a position. -/
def nOrderPosOff (s : Reorder) (nOrderPos : Int) : Nat :=
  s.nOrderPosOffsets.countP fun nOffsetStart => nOffsetStart ≤ nOrderPos

/-- The body of the loop, without the write. -/
def place (s : Reorder) (item : OrderItem) : Option Reorder :=
  if item.nOrderPos = -1 then
    if s.nOrderPosNext + 1 ≤ Int64.maxValue.toInt then
      some ⟨s.nOrderPosNext + 1, s.nOrderPosOffsets ++ [s.nOrderPosNext],
        (item, s.nOrderPosNext) :: s.done⟩
    else none
  else
    let nOrderPos := item.nOrderPos + s.nOrderPosOff item.nOrderPos
    if nOrderPos + 1 ≤ Int64.maxValue.toInt then
      some ⟨max s.nOrderPosNext (nOrderPos + 1), s.nOrderPosOffsets, (item, nOrderPos) :: s.done⟩
    else none

/-- Whether the item is written back: a transaction without a position is not. -/
def writes (s : Reorder) (item : OrderItem) : Bool :=
  if item.nOrderPos = -1 then item.strAccount.isSome else s.nOrderPosOff item.nOrderPos ≠ 0

end Reorder

namespace OrderWallet

/-- `ListAccountCreditDebit`, of all accounts for "*". -/
def listAccountCreditDebit (w : OrderWallet) (strAccount : String) : List OrderItem :=
  if strAccount == "*" then w.acentries
  else w.acentries.filter fun entry => entry.strAccount == some strAccount

/-- The multimap: items of the same time stay in the order in which they are inserted. -/
def txByTime (w : OrderWallet) : List OrderItem :=
  (w.mapWallet ++ w.listAccountCreditDebit "").insertionSort (·.nTime ≤ ·.nTime)

/-- `ReorderTransactions`, or `none` for `DB_LOAD_FAIL` and for an overflow. `write` says which writes
succeed. -/
def reorderTransactions (w : OrderWallet) (write : OrderItem → Bool) : Option Reorder :=
  w.txByTime.foldlM (fun s item => if s.writes item && !write item then none else s.place item) .init

end OrderWallet

end NovaCoin
