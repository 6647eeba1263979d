import Mathlib.Data.Finset.Insert
import NovaCoin.Infra.AssocMap
import NovaCoin.Infra.Guard
import NovaCoin.Infra.Runs
import NovaCoin.Unserialize

/-!
# Alerts

`CAlert` and `ProcessAlert` (`alert.h`, `alert.cpp`): signed messages, kept in `mapAlerts` until
they expire or a later one cancels them. The alert with the largest number is meant for the case
that the key of the alerts is compromised, and has to come in a fixed form.

A call reads the clock once. Telling the user interface is left out.
-/

namespace NovaCoin

open Guard
open Wire (ByteStream Reader)

/-! ## The message -/

/-- `std::string` as its bytes. -/
def stringBytes (s : String) : List UInt8 := s.toList.map fun c => UInt8.ofNat c.toNat

structure CUnsignedAlert where
  nVersion : Int32
  nRelayUntil : Int64
  nExpiration : Int64
  nID : Int32
  nCancel : Int32
  setCancel : Finset Int32
  nMinVer : Int32
  nMaxVer : Int32
  setSubVer : Finset (List UInt8)
  nPriority : Int32
  strComment : List UInt8
  strStatusBar : List UInt8
  strReserved : List UInt8
  deriving DecidableEq

/-- `CUnsignedAlert::SetNull`. -/
def CUnsignedAlert.null : CUnsignedAlert :=
  { nVersion := 1, nRelayUntil := 0, nExpiration := 0, nID := 0, nCancel := 0, setCancel := ∅,
    nMinVer := 0, nMaxVer := 0, setSubVer := ∅, nPriority := 0, strComment := [],
    strStatusBar := [], strReserved := [] }

section Readers

variable {σ : Type} [ByteStream σ]

/-- `Unserialize` of a `std::set`: the elements are inserted one after the other. -/
def unserializeSet {α : Type} [DecidableEq α] (unserialize : Reader σ α) : Reader σ (Finset α) := do
  let nSize ← readCompactSize
  let elems ← Wire.many unserialize nSize
  return elems.toFinset

def CUnsignedAlert.unserialize : Reader σ CUnsignedAlert := do
  let nVersion ← readInt32
  let nRelayUntil ← readInt64
  let nExpiration ← readInt64
  let nID ← readInt32
  let nCancel ← readInt32
  let setCancel ← unserializeSet readInt32
  let nMinVer ← readInt32
  let nMaxVer ← readInt32
  let setSubVer ← unserializeSet unserializeString
  let nPriority ← readInt32
  let strComment ← unserializeString
  let strStatusBar ← unserializeString
  let strReserved ← unserializeString
  return ⟨nVersion, nRelayUntil, nExpiration, nID, nCancel, setCancel, nMinVer, nMaxVer, setSubVer,
    nPriority, strComment, strStatusBar, strReserved⟩

end Readers

/-- An alert: the serialized `CUnsignedAlert`, its signature, and its content. -/
structure CAlert extends CUnsignedAlert where
  vchMsg : List UInt8
  vchSig : List UInt8
  deriving DecidableEq

/-- An alert as it is received: only the message and the signature are read. -/
def CAlert.received (vchMsg vchSig : List UInt8) : CAlert := ⟨.null, vchMsg, vchSig⟩

/-! ## The key -/

def hexDigit (c : Char) : Option Nat :=
  if '0' ≤ c ∧ c ≤ '9' then some (c.toNat - '0'.toNat)
  else if 'a' ≤ c ∧ c ≤ 'f' then some (c.toNat - 'a'.toNat + 10)
  else if 'A' ≤ c ∧ c ≤ 'F' then some (c.toNat - 'A'.toNat + 10)
  else none

/-- `ParseHex` of a text without white space: up to the first pair that is not of digits. -/
def parseHex : List Char → List UInt8
  | c₁ :: c₂ :: psz =>
    match hexDigit c₁, hexDigit c₂ with
    | some n₁, some n₂ => UInt8.ofNat (n₁ * 16 + n₂) :: parseHex psz
    | _, _ => []
  | _ => []

def pszMainKey : String :=
  "043fa441fd4203d03f5df2b75ea14e36f20d39f43e7a61aa7552ab9bcd7ecb0e77a3be4585b13fcdaa22ef6e51f1ff6f2929bec2494385b086fb86610e33193195"

def pszTestKey : String :=
  "0471dc165db490094d35cde15b1f5d755fa6ad6f2b5ed0f340e3f17f57389c3c2af113a8cbcc885bde73305a553b5640c83021128008ddf882e856336269080496"

namespace CAlert

/-- `CAlert::CheckSignature`: the alert with what the message says. An exception ends the call as
well. -/
def checkSignature (crypto : Crypto) (fTestNet : Bool) (alert : CAlert) : Except String CAlert := do
  let key := parseHex (if fTestNet then pszTestKey else pszMainKey).toList
  require (crypto.verify key (crypto.hash alert.vchMsg) alert.vchSig)
    "CAlert::CheckSignature() : verify signature failed"
  let (unsigned, _) ← CUnsignedAlert.unserialize (CDataStream.new alert.vchMsg)
  pure { alert with toCUnsignedAlert := unsigned }

def getHash (crypto : Crypto) (alert : CAlert) : Uint256 := crypto.hash alert.vchMsg

/-- `IsInEffect` at a time. -/
def isInEffect (nNow : Int64) (alert : CAlert) : Bool := nNow < alert.nExpiration

/-- `CAlert::Cancels`: what `self` does to `alert`. -/
def cancels (nNow : Int64) (self alert : CAlert) : Bool :=
  if !self.isInEffect nNow then false
  else alert.nID ≤ self.nCancel || decide (alert.nID ∈ self.setCancel)

/-- `std::numeric_limits<int>::max()`. -/
def maxInt : Int32 := 2147483647

/-- The fixed form of the alert that is reserved for a compromised key. -/
def hasFinalForm (alert : CAlert) : Bool :=
  alert.nExpiration == 2147483647 && alert.nCancel == maxInt - 1 && alert.nMinVer == 0 &&
    alert.nMaxVer == maxInt && alert.setSubVer == ∅ && alert.nPriority == maxInt &&
    alert.strStatusBar == stringBytes "URGENT: Alert key compromised, upgrade required"

end CAlert

/-! ## ProcessAlert -/

abbrev AlertMap := AList fun _ : Uint256 => CAlert

namespace AlertMap

/-- The first loop: alerts that are cancelled or have expired are erased. -/
def expire (nNow : Int64) (alert : CAlert) (mapAlerts : AlertMap) : AlertMap :=
  AssocMap.filter (fun _ old => !alert.cancels nNow old && old.isInEffect nNow) mapAlerts

/-- The second loop: some alert that is kept cancels this one. -/
def isCancelled (nNow : Int64) (alert : CAlert) (mapAlerts : AlertMap) : Bool :=
  mapAlerts.entries.any fun item => CAlert.cancels nNow item.2 alert

/-- `std::map::insert`, which keeps an entry that is there. -/
def insertNew (mapAlerts : AlertMap) (hash : Uint256) (alert : CAlert) : AlertMap :=
  if hash ∈ mapAlerts then mapAlerts else mapAlerts.insert hash alert

end AlertMap

/-- Whether an alert with a valid signature goes on to `mapAlerts`. -/
def CAlert.isAdmitted (nNow : Int64) (alert : CAlert) : Bool :=
  alert.isInEffect nNow && (alert.nID != maxInt || alert.hasFinalForm)

/-- `ProcessAlert` from the lock of `cs_mapAlerts` on: the map and the result. -/
def AlertMap.add (crypto : Crypto) (nNow : Int64) (mapAlerts : AlertMap) (alert : CAlert) :
    AlertMap × Bool :=
  let mapAlerts := AlertMap.expire nNow alert mapAlerts
  if AlertMap.isCancelled nNow alert mapAlerts then (mapAlerts, false)
  else (AlertMap.insertNew mapAlerts (alert.getHash crypto) alert, true)

/-- `ProcessAlert`: the map and the result. -/
def processAlert (crypto : Crypto) (fTestNet : Bool) (nNow : Int64) (mapAlerts : AlertMap)
    (alert : CAlert) : AlertMap × Bool :=
  match alert.checkSignature crypto fTestNet with
  | .error _ => (mapAlerts, false)
  | .ok alert =>
    if !alert.isAdmitted nNow then (mapAlerts, false) else AlertMap.add crypto nNow mapAlerts alert

/-- A call of `ProcessAlert`: what was received, and the time. -/
structure AlertCall where
  vchMsg : List UInt8
  vchSig : List UInt8
  nNow : Int64

def AlertCall.alert (call : AlertCall) : CAlert := .received call.vchMsg call.vchSig

/-- One call after the other. -/
def processAlerts (crypto : Crypto) (fTestNet : Bool) (mapAlerts : AlertMap)
    (calls : List AlertCall) : AlertMap :=
  calls.foldl (fun mapAlerts call => (processAlert crypto fTestNet call.nNow mapAlerts call.alert).1)
    mapAlerts

end NovaCoin
