import Mathlib.Data.Fintype.Basic
import NovaCoin.Infra.AssocMap
import NovaCoin.Infra.Guard
import NovaCoin.Infra.Runs
import NovaCoin.NetAddr
import NovaCoin.Unserialize

/-!
# The address manager

`CAddrMan` (`addrman.h`, `addrman.cpp`): the addresses of other nodes, each under an id. An address
that was never connected to is in up to four of the 256 "new" buckets, one that was in one of the 64
"tried" buckets; `vRandom` has the ids in a random order.

`none` is a failed `assert`; reading a table at a key that it does not have counts as one. The ids
are unbounded, where `nIdCount` is an `int`: fewer than 2³¹ entries are created. `rnd k` is what the
random source gives at the `k`-th place of a call where it is asked; `nNow` is the clock, read once in a
call, where `IsTerrible` reads it for every entry. `std::map` and `std::set` are `Std.TreeMap` and
`Std.TreeSet`, which are gone through in the same order.
-/

namespace NovaCoin

open Function (update)
open Guard (require forAll foldAll)
open Std (TreeMap TreeSet)

structure CAddrMan where
  nKey : List UInt8
  nIdCount : Int
  mapInfo : TreeMap Int CAddrInfo
  mapAddr : AList fun _ : CNetAddr => Int
  vRandom : List Int
  nTried : Int32
  vvTried : Fin 64 → List Int
  nNew : Int32
  vvNew : Fin 256 → TreeSet Int

def getRandInt (rnd : Nat → Nat) (k nMax : Nat) : Nat := if nMax = 0 then 0 else rnd k % nMax

theorem getRandInt_lt (rnd : Nat → Nat) (k : Nat) {nMax : Nat} (h : 0 < nMax) :
    getRandInt rnd k nMax < nMax := by
  rw [getRandInt, if_neg (Nat.ne_of_gt h)]
  exact Nat.mod_lt _ h

namespace CAddrMan

/-- `CAddrMan::CAddrMan`; the key is random. -/
def new (nKey : List UInt8) : CAddrMan :=
  { nKey, nIdCount := 0, mapInfo := ∅, mapAddr := ∅, vRandom := [], nTried := 0,
    vvTried := fun _ => [], nNew := 0, vvNew := fun _ => ∅ }

variable (crypto : Crypto) (s : CAddrMan)

/-! ## The tables -/

/-- `CAddrMan::Find`: the id and the entry. -/
def find (addr : CNetAddr) : Option (Int × CAddrInfo) := do
  let nId ← s.mapAddr.lookup addr
  let info ← s.mapInfo[nId]?
  return (nId, info)

/-- A change of an entry through a reference to it. -/
def modifyInfo (nId : Int) (f : CAddrInfo → CAddrInfo) : CAddrMan :=
  { s with mapInfo := s.mapInfo.modify nId f }

/-- `CAddrMan::Create`; the id is `nIdCount`. -/
def create (addr : CAddress) (addrSource : CNetAddr) : CAddrMan :=
  { s with
    nIdCount := s.nIdCount + 1
    mapInfo := s.mapInfo.insert s.nIdCount
      { CAddrInfo.new addr addrSource with nRandomPos := s.vRandom.length }
    mapAddr := s.mapAddr.insert addr.toCNetAddr s.nIdCount
    vRandom := s.vRandom ++ [s.nIdCount] }

def swapRandom (nRndPos1 nRndPos2 : Nat) : Option CAddrMan :=
  if nRndPos1 = nRndPos2 then some s
  else do
    let nId1 ← s.vRandom[nRndPos1]?
    let nId2 ← s.vRandom[nRndPos2]?
    guard (nId1 ∈ s.mapInfo ∧ nId2 ∈ s.mapInfo)
    return { s with
      mapInfo := (s.mapInfo.modify nId1 fun info => { info with nRandomPos := nRndPos2 }).modify nId2
        fun info => { info with nRandomPos := nRndPos1 }
      vRandom := (s.vRandom.set nRndPos1 nId2).set nRndPos2 nId1 }

/-! ## Making room in a bucket -/

/-- The entry goes from `vRandom` and both maps. -/
def eraseInfo (nId : Int) (info : CAddrInfo) : Option CAddrMan := do
  let s ← s.swapRandom info.nRandomPos.toNat (s.vRandom.length - 1)
  return { s with
    vRandom := s.vRandom.dropLast
    mapAddr := s.mapAddr.erase info.toCNetAddr
    mapInfo := s.mapInfo.erase nId
    nNew := s.nNew - 1 }

/-- An entry has one reference less. -/
def dropRef (info : CAddrInfo) : CAddrInfo := { info with nRefCount := info.nRefCount - 1 }

/-- `if (--info.nRefCount == 0)`: the entry goes with its last reference. -/
def releaseInfo (nId : Int) : Option CAddrMan := do
  let info ← s.mapInfo[nId]?
  if (dropRef info).nRefCount = 0 then (s.modifyInfo nId dropRef).eraseInfo nId (dropRef info)
  else some (s.modifyInfo nId dropRef)

/-- One new bucket is exchanged. -/
def setNew (b : Fin 256) (vNew : TreeSet Int) : CAddrMan :=
  { s with vvNew := update s.vvNew b vNew }

/-- How both halves of `ShrinkNew` end: the bucket loses an id. -/
def removeFromNew (nUBucket : Fin 256) (nId : Int) : Option CAddrMan := do
  let s ← s.releaseInfo nId
  return s.setNew nUBucket ((s.vvNew nUBucket).erase nId)

/-- The first of the entries that can be deleted. -/
def firstTerrible (nNow : Int64) : List Int → Option (Option Int)
  | [] => some none
  | nId :: vNew => do
    let info ← s.mapInfo[nId]?
    if info.isTerrible nNow then some (some nId) else firstTerrible nNow vNew

/-- One entry of the bucket, at a place in it, in the search for the oldest at the places `n`. -/
def inspectNew (n : List Nat) (nOldest : Option Int) (item : Int × Nat) : Option (Option Int) :=
  if item.2 ∈ n then
    match nOldest with
    | none => some (some item.1)
    | some nOldest => do
      let info ← s.mapInfo[item.1]?
      let infoOldest ← s.mapInfo[nOldest]?
      some (some (if info.nTime < infoOldest.nTime then item.1 else nOldest))
  else some nOldest

/-- `CAddrMan::ShrinkNew`, with its result: 0 if there was an entry to delete, 1 if the oldest of
four left. -/
def shrinkNew (nNow : Int64) (rnd : Nat → Nat) (nUBucket : Fin 256) : Option (CAddrMan × Int) := do
  let vNew := (s.vvNew nUBucket).toList
  match ← s.firstTerrible nNow vNew with
  | some nId => return (← s.removeFromNew nUBucket nId, 0)
  | none =>
    let n := [getRandInt rnd 0 vNew.length, getRandInt rnd 1 vNew.length,
      getRandInt rnd 2 vNew.length, getRandInt rnd 3 vNew.length]
    let nOldest ← vNew.zipIdx.foldlM (s.inspectNew n) none
    return (← s.removeFromNew nUBucket (← nOldest), 1)

/-- One round of the loop of `SelectTried`: the bucket, shuffled up to the place `i`, and the oldest
entry so far with its place. -/
def inspectTried (rnd : Nat → Nat) (st : List Int × Option (Int × Nat)) (i : Nat) :
    Option (List Int × Option (Int × Nat)) := do
  let nPos := getRandInt rnd i (st.1.length - i) + i
  let nTemp ← st.1[nPos]?
  let nSwap ← st.1[i]?
  let vTried := (st.1.set nPos nSwap).set i nTemp
  match st.2 with
  | none => return (vTried, some (nTemp, nPos))
  | some (nOldest, nOldestPos) =>
    let info ← s.mapInfo[nTemp]?
    let infoOldest ← s.mapInfo[nOldest]?
    return (vTried,
      if info.nLastSuccess < infoOldest.nLastSuccess then some (nTemp, nPos)
      else some (nOldest, nOldestPos))

/-- `CAddrMan::SelectTried`: the shuffled bucket and the place, where after the shuffle the oldest
entry may no longer be. -/
def selectTried (rnd : Nat → Nat) (nKBucket : Fin 64) : Option (List Int × Nat) := do
  let vTried := s.vvTried nKBucket
  let (vTried, oldest) ← (List.range (min 4 vTried.length)).foldlM (s.inspectTried rnd) (vTried, none)
  let (_, nOldestPos) ← oldest
  return (vTried, nOldestPos)

/-! ## From new to tried -/

/-- The id leaves all new buckets, and the entry loses a reference for each. -/
def removeFromAll (nId : Int) : CAddrMan :=
  let nErased := (List.finRange 256).countP fun b => decide (nId ∈ s.vvNew b)
  { s.modifyInfo nId (fun info => { info with nRefCount := info.nRefCount - nErased }) with
    vvNew := fun b => (s.vvNew b).erase nId
    nNew := s.nNew - 1 }

/-- There is place in the tried bucket. -/
def pushTried (nId : Int) (nKBucket : Fin 64) : CAddrMan :=
  { s.modifyInfo nId (fun info => { info with fInTried := true }) with
    vvTried := update s.vvTried nKBucket (s.vvTried nKBucket ++ [nId])
    nTried := s.nTried + 1 }

/-- The entry `nOld` goes back to a new bucket, and `nId` is in its place; `nTried` stays. -/
def evictTried (nId nOld : Int) (nTarget : Fin 256) (nKBucket : Fin 64) (vTried : List Int) :
    CAddrMan :=
  let s := s.modifyInfo nOld fun info => { info with fInTried := false, nRefCount := 1 }
  let s := s.setNew nTarget ((s.vvNew nTarget).insert nOld)
  let s := s.modifyInfo nId fun info => { info with fInTried := true }
  { s with nNew := s.nNew + 1, vvTried := update s.vvTried nKBucket vTried }

/-- Another entry of the tried bucket has to leave: to its own new bucket or, if that is full, to
that of `nId`. -/
def replaceTried (rnd : Nat → Nat) (nId : Int) (nOrigin : Fin 256) (nKBucket : Fin 64) :
    Option CAddrMan := do
  let (vTried, nPos) ← s.selectTried rnd nKBucket
  let nOld ← vTried[nPos]?
  let infoOld ← s.mapInfo[nOld]?
  let nUBucket := infoOld.getNewBucket crypto s.nKey infoOld.source
  let nTarget := if (s.vvNew nUBucket).size < 64 then nUBucket else nOrigin
  return s.evictTried nId nOld nTarget nKBucket (vTried.set nPos nId)

def makeTried (rnd : Nat → Nat) (nId : Int) (nOrigin : Fin 256) : Option CAddrMan := do
  guard (nId ∈ s.vvNew nOrigin)
  let s := s.removeFromAll nId
  let info ← s.mapInfo[nId]?
  guard (info.nRefCount = 0)
  let nKBucket := info.getTriedBucket crypto s.nKey
  if (s.vvTried nKBucket).length < 64 then return s.pushTried nId nKBucket
  else s.replaceTried crypto rnd nId nOrigin nKBucket

/-! ## The calls -/

/-- The first of the new buckets, from a random one on, that has the id. -/
def findBucket (nRnd : Nat) (nId : Int) : Option (Fin 256) :=
  ((List.range 256).map fun n => CAddrInfo.newBucket (n + nRnd)).find? fun nB => decide (nId ∈ s.vvNew nB)

/-- `CAddrMan::Good_`; `none` where an assertion fails. -/
def good_ (rnd : Nat → Nat) (addr : CService) (nTime : Int64) : Option CAddrMan :=
  match s.find addr.toCNetAddr with
  | none => some s
  | some (nId, info) =>
    if info.toCService ≠ addr then some s
    else
      let s := s.modifyInfo nId fun info =>
        { info with
          nLastSuccess := nTime, nLastTry := nTime, nTime := nTime.toUInt64.toUInt32, nAttempts := 0 }
      if info.fInTried then some s
      else
        match s.findBucket (getRandInt rnd 0 256) nId with
        | none => some s
        | some nUBucket => s.makeTried crypto (fun k => rnd (k + 1)) nId nUBucket

/-- The new time and services of an entry that `Add_` finds. -/
def refreshInfo (addr : CAddress) (nTimePenalty nNow : Int64) (info : CAddrInfo) : CAddrInfo :=
  let fCurrentlyOnline := nNow - CAddrInfo.time64 addr.nTime < CAddrInfo.nOneDay
  let nUpdateInterval := if fCurrentlyOnline then CAddrInfo.nOneHour else CAddrInfo.nOneDay
  let fUpdate := addr.nTime ≠ 0 ∧ (info.nTime = 0 ∨ CAddrInfo.time64 info.nTime <
    CAddrInfo.time64 addr.nTime - nUpdateInterval - nTimePenalty)
  { info with
    nTime := if fUpdate then (max 0 (CAddrInfo.time64 addr.nTime - nTimePenalty)).toUInt64.toUInt32
      else info.nTime
    nServices := info.nServices ||| addr.nServices }

/-- Whether `Add_` leaves it at the refreshed entry: nothing is new, it is tried or has all its
references, or the draw is against one more. -/
def isSettled (rnd : Nat → Nat) (addr : CAddress) (info : CAddrInfo) : Bool :=
  (addr.nTime == 0 || (info.nTime != 0 && addr.nTime ≤ info.nTime)) || info.fInTried ||
    info.nRefCount == 4 ||
    (1 < 2 ^ info.nRefCount.toNat && getRandInt rnd 0 (2 ^ info.nRefCount.toNat) != 0)

/-- An entry has one reference more. -/
def addRef (info : CAddrInfo) : CAddrInfo := { info with nRefCount := info.nRefCount + 1 }

/-- The end of `Add_`: the bucket gets the id, and room is made for it before. -/
def addReference (nNow : Int64) (rnd : Nat → Nat) (nId : Int) (nUBucket : Fin 256) :
    Option CAddrMan :=
  if nId ∈ s.vvNew nUBucket then some s
  else do
    let s := s.modifyInfo nId addRef
    let s ← if (s.vvNew nUBucket).size = 64 then (s.shrinkNew nNow rnd nUBucket).map (·.1) else some s
    return s.setNew nUBucket ((s.vvNew nUBucket).insert nId)

/-- A new entry for `Add_`. -/
def addInfo (addr : CAddress) (source : CNetAddr) (nTimePenalty : Int64) : CAddrMan :=
  let s := (s.create addr source).modifyInfo s.nIdCount fun info =>
    { info with nTime := (max 0 (CAddrInfo.time64 info.nTime - nTimePenalty)).toUInt64.toUInt32 }
  { s with nNew := s.nNew + 1 }

/-- `CAddrMan::Add_`, with its result: whether the address is new. -/
def add_ (rnd : Nat → Nat) (nNow : Int64) (addr : CAddress) (source : CNetAddr)
    (nTimePenalty : Int64) : Option (CAddrMan × Bool) :=
  if !addr.isRoutable then some (s, false)
  else
    match s.find addr.toCNetAddr with
    | some (nId, info) =>
      let s := s.modifyInfo nId (refreshInfo addr nTimePenalty nNow)
      let info := refreshInfo addr nTimePenalty nNow info
      if isSettled rnd addr info then some (s, false)
      else do
        let nUBucket := info.getNewBucket crypto s.nKey source
        return (← s.addReference nNow (fun k => rnd (k + 1)) nId nUBucket, false)
    | none => do
      let nUBucket := (CAddrInfo.new addr source).getNewBucket crypto s.nKey source
      return (← (s.addInfo addr source nTimePenalty).addReference nNow (fun k => rnd (k + 1))
        s.nIdCount nUBucket, true)

def attempt_ (addr : CService) (nTime : Int64) : CAddrMan :=
  match s.find addr.toCNetAddr with
  | none => s
  | some (nId, info) =>
    if info.toCService ≠ addr then s
    else s.modifyInfo nId fun info =>
      { info with nLastTry := nTime, nAttempts := info.nAttempts + 1 }

def connected_ (addr : CService) (nTime : Int64) : CAddrMan :=
  match s.find addr.toCNetAddr with
  | none => s
  | some (nId, info) =>
    if info.toCService ≠ addr then s
    else if 20 * 60 < nTime - CAddrInfo.time64 info.nTime then
      s.modifyInfo nId fun info => { info with nTime := nTime.toUInt64.toUInt32 }
    else s

/-- One round of `GetAddr_`. -/
def shuffleRound (rnd : Nat → Nat) (st : CAddrMan × List CAddress) (n : Nat) :
    Option (CAddrMan × List CAddress) := do
  let nRndPos := getRandInt rnd n (st.1.vRandom.length - n) + n
  let s ← st.1.swapRandom n nRndPos
  let info ← s.mapInfo[← s.vRandom[n]?]?
  return (s, st.2 ++ [info.toCAddress])

/-- `CAddrMan::GetAddr_`, with the addresses. -/
def getAddr_ (rnd : Nat → Nat) : Option (CAddrMan × List CAddress) :=
  let nNodes := min (23 * s.vRandom.length / 100) 2500
  (List.range nNodes).foldlM (shuffleRound rnd) (s, [])

/-- What one round of `Select_` draws: a bucket, a place in it, and whether the entry is taken. -/
structure SelectDraw where
  nBucket : Nat
  nPos : Nat
  fTake : Bool

/-- One of the loops of `Select_`, over a table of buckets. -/
def selectFrom (table : Nat → List Int) : List SelectDraw → Option CAddress
  | [] => some CAddress.null
  | draw :: draws =>
    let bucket := table draw.nBucket
    if bucket.length = 0 then selectFrom table draws
    else do
      let info ← s.mapInfo[← bucket[draw.nPos % bucket.length]?]?
      if draw.fTake then return info.toCAddress else selectFrom table draws

/-- `CAddrMan::Select_`. Comparisons of floating-point numbers with a random one are drawn here. A
call that has not ended after so many draws has selected nothing. -/
def select_ (fTried : Bool) (draws : List SelectDraw) : Option CAddress :=
  if s.vRandom.length = 0 then some CAddress.null
  else if fTried then s.selectFrom (fun n => s.vvTried (CAddrInfo.triedBucket n)) draws
  else s.selectFrom (fun n => (s.vvNew (CAddrInfo.newBucket n)).toList) draws

end CAddrMan

/-- A call of the address manager, with the clock and what is drawn in it. -/
inductive AddrManCall
  | add (addr : CAddress) (source : CNetAddr) (nTimePenalty nNow : Int64) (rnd : Nat → Nat)
  | good (addr : CService) (nTime : Int64) (rnd : Nat → Nat)
  | attempt (addr : CService) (nTime : Int64)
  | connected (addr : CService) (nTime : Int64)
  | getAddr (rnd : Nat → Nat)
  | select (fTried : Bool) (draws : List CAddrMan.SelectDraw)

namespace CAddrMan

variable (crypto : Crypto)

/-- The state after a call, if no `assert` fails in it. -/
def step (s : CAddrMan) : AddrManCall → Option CAddrMan
  | .add addr source nTimePenalty nNow rnd =>
    (s.add_ crypto rnd nNow addr source nTimePenalty).map (·.1)
  | .good addr nTime rnd => s.good_ crypto rnd addr nTime
  | .attempt addr nTime => some (s.attempt_ addr nTime)
  | .connected addr nTime => some (s.connected_ addr nTime)
  | .getAddr rnd => (s.getAddr_ rnd).map (·.1)
  | .select fTried draws => (s.select_ fTried draws).map fun _ => s

def run (s : CAddrMan) (calls : List AddrManCall) : Option CAddrMan := Runs.run (step crypto) s calls

/-! ## The consistency check -/

variable (s : CAddrMan)

/-- What `Check_` checks of an entry. `mapAddr[info]` is 0 for an address not in the map. -/
def checkInfo (n : Int) (info : CAddrInfo) : Except Int Unit := do
  if info.fInTried then
    require (info.nLastSuccess != 0) (-1)
    require (info.nRefCount == 0) (-2)
  else
    require (!(info.nRefCount < 0 || 4 < info.nRefCount)) (-3)
    require (info.nRefCount != 0) (-4)
  require ((s.mapAddr.lookup info.toCNetAddr).getD 0 == n) (-5)
  require (0 ≤ info.nRandomPos && s.vRandom[info.nRandomPos.toNat]? == some n) (-14)
  require (0 ≤ info.nLastTry) (-6)
  require (0 ≤ info.nLastSuccess) (-8)

/-- The ids of the tried entries. -/
def setTried : TreeSet Int :=
  TreeSet.ofList ((s.mapInfo.toList.filter fun item => item.2.fInTried).map fun item => item.1)

/-- The other ids, with their references. -/
def mapNew : TreeMap Int Int :=
  TreeMap.ofList ((s.mapInfo.toList.filter fun item => !item.2.fInTried).map fun item =>
    (item.1, item.2.nRefCount))

/-- An id of a tried bucket leaves `setTried`. -/
def checkTried (setTried : TreeSet Int) (n : Int) : Except Int (TreeSet Int) := do
  require (setTried.contains n) (-11)
  return setTried.erase n

/-- An id of a new bucket takes one of its references from `mapNew`. -/
def checkNew (mapNew : TreeMap Int Int) (n : Int) : Except Int (TreeMap Int Int) :=
  match mapNew[n]? with
  | none => .error (-12)
  | some nRefCount =>
    .ok (if nRefCount - 1 = 0 then mapNew.erase n else mapNew.insert n (nRefCount - 1))

/-- `CAddrMan::Check_`; the code is an error. -/
def check_ : Except Int Unit := do
  require ((s.vRandom.length : Int) == s.nTried.toInt + s.nNew.toInt) (-7)
  forAll (fun item => s.checkInfo item.1 item.2) s.mapInfo.toList
  require ((s.setTried.size : Int) == s.nTried.toInt) (-9)
  require ((s.mapNew.size : Int) == s.nNew.toInt) (-10)
  let setTried ← foldAll checkTried s.setTried ((List.finRange 64).flatMap s.vvTried)
  let mapNew ← foldAll checkNew s.mapNew ((List.finRange 256).flatMap fun b => (s.vvNew b).toList)
  require setTried.isEmpty (-13)
  require mapNew.isEmpty (-15)

end CAddrMan

/-! ## On disk

`IMPLEMENT_SERIALIZE` of `CAddrMan` and its parts (`protocol.h`, `netbase.h`), for streams of the type
`SER_DISK`. The ids are not stored: new entries are written in the order of their ids and the new
buckets as lists of their places in it; then come the tried entries, whose buckets are computed
again. What is stored is `AddrManData`. The tables are filled while the fields are read, which does
not show unless the stream ends before. -/

open Wire (ByteStream Reader)

/-- `htons` and `ntohs`, on a little-endian machine. -/
def byteSwap (n : Nat) : Nat := n % 256 * 256 + n / 256

/-- An entry on disk. The version written with the address is that of `CAddrMan`, 0. -/
def CAddrInfo.serialize (info : CAddrInfo) : List UInt8 :=
  leBytes 4 0 ++ leBytes 4 info.nTime.toNat ++ leBytes 8 info.nServices.toNat ++ info.ip ++
    leBytes 2 (byteSwap info.port.toNat) ++ info.source.ip ++
    leBytes 8 info.nLastSuccess.toUInt64.toNat ++ leBytes 4 info.nAttempts.toUInt32.toNat

/-- What a stored entry is again: the fields in memory only are as `Init` leaves them. -/
def CAddrInfo.stored (info : CAddrInfo) : CAddrInfo :=
  { info with nLastTry := 0, nRefCount := 0, fInTried := false, nRandomPos := -1 }

/-- `CAddrInfo::CAddrInfo()`. -/
def CAddrInfo.null : CAddrInfo := CAddrInfo.new CAddress.null CAddress.null.toCNetAddr

section Readers

variable {σ : Type} [ByteStream σ]

/-- `READWRITE(FLATDATA(ip))`. -/
def CNetAddr.unserialize : Reader σ CNetAddr := do
  let ip ← Wire.take 16
  if h : ip.length = 16 then return ⟨ip, h⟩ else throw "read of another length"

def CAddrInfo.unserialize : Reader σ CAddrInfo := do
  let _nVersion ← readInt32
  let nTime ← readUInt32
  let nServices ← readUInt64
  let addr ← CNetAddr.unserialize
  let portN ← readLe 2
  let source ← CNetAddr.unserialize
  let nLastSuccess ← readInt64
  let nAttempts ← readInt32
  return {
    toCNetAddr := addr, port := UInt16.ofNat (byteSwap portN), nServices, nTime,
    nLastTry := 0, source, nLastSuccess, nAttempts, nRefCount := 0, fInTried := false,
    nRandomPos := -1 }

end Readers

/-! ## The file -/

/-- What is stored of an address manager. -/
structure AddrManData where
  nKey : List UInt8
  nNew : Int32
  nTried : Int32
  nUBuckets : Int32
  vInfoNew : List CAddrInfo
  vInfoTried : List CAddrInfo
  /-- the lists of places in `vInfoNew` -/
  vvIndex : List (List Int32)

/-- `READWRITE` of an `int`. -/
def serializeInt32 (n : Int32) : List UInt8 := leBytes 4 n.toUInt32.toNat

/-- A new bucket: its size and its indices. -/
def serializeIndices (v : List Int32) : List UInt8 :=
  serializeInt32 (Int32.ofNat v.length) ++ v.flatMap serializeInt32

namespace AddrManData

/-- The first byte is `nVersion`. -/
def serialize (d : AddrManData) : List UInt8 :=
  leBytes 1 0 ++ serializeBytes d.nKey ++ serializeInt32 d.nNew ++ serializeInt32 d.nTried ++
    serializeInt32 d.nUBuckets ++ d.vInfoNew.flatMap CAddrInfo.serialize ++
    d.vInfoTried.flatMap CAddrInfo.serialize ++ d.vvIndex.flatMap serializeIndices

section Readers

variable {σ : Type} [ByteStream σ]

/-- How often a loop `for (int n = 0; n < nMax; n++)` runs. -/
def rounds (nMax : Int32) : Nat := nMax.toInt.toNat

def readIndices : Reader σ (List Int32) := do
  let nSize ← readInt32
  Wire.many readInt32 (rounds nSize)

/-- With more buckets than there are, `vvNew` would be read beyond its end: here an error. -/
def unserialize : Reader σ AddrManData := do
  let _nVersion ← readLe 1
  let nKey ← unserializeBytes
  let nNew ← readInt32
  let nTried ← readInt32
  let nUBuckets ← readInt32
  let vInfoNew ← Wire.many CAddrInfo.unserialize (rounds nNew)
  let vInfoTried ← Wire.many CAddrInfo.unserialize (rounds nTried)
  if 256 < rounds nUBuckets then throw "more buckets than there are"
  else
    let vvIndex ← Wire.many readIndices (rounds nUBuckets)
    return { nKey, nNew, nTried, nUBuckets, vInfoNew, vInfoTried, vvIndex }

end Readers

end AddrManData

/-! ## Writing -/

namespace CAddrMan

/-- The loop over the new entries, which ends as soon as `nNew` are written: what is written and
`mapUnkIds`. -/
def writeNew (nNew : Int) : List (Int × CAddrInfo) → Int → TreeMap Int Int →
    List CAddrInfo × TreeMap Int Int
  | [], _, mapUnkIds => ([], mapUnkIds)
  | (n, info) :: rest, nIds, mapUnkIds =>
    if nIds = nNew then ([], mapUnkIds)
    else if info.nRefCount ≠ 0 then
      let written := writeNew nNew rest (nIds + 1) (mapUnkIds.insert n nIds)
      (info :: written.1, written.2)
    else writeNew nNew rest nIds (mapUnkIds.insert n nIds)

/-- The loop over the tried entries, which ends early as well. -/
def writeTried (nTried : Int) : List (Int × CAddrInfo) → Int → List CAddrInfo
  | [], _ => []
  | (_, info) :: rest, nIds =>
    if nIds = nTried then []
    else if info.fInTried then info :: writeTried nTried rest (nIds + 1)
    else writeTried nTried rest nIds

/-- What is written. -/
def toData (s : CAddrMan) : AddrManData :=
  let written := writeNew s.nNew.toInt s.mapInfo.toList 0 ∅
  { nKey := s.nKey, nNew := s.nNew, nTried := s.nTried, nUBuckets := 256,
    vInfoNew := written.1, vInfoTried := writeTried s.nTried.toInt s.mapInfo.toList 0,
    vvIndex := (List.finRange 256).map fun b =>
      (s.vvNew b).toList.map fun n => Int32.ofInt (written.2.getD n 0) }

def serialize (s : CAddrMan) : List UInt8 := s.toData.serialize

/-! ## Reading -/

variable (crypto : Crypto)

/-- A new entry is read. The lists of a file with another number of buckets are not used. -/
def loadNew (fRebucket : Bool) (s : CAddrMan) (item : CAddrInfo × Nat) : CAddrMan :=
  let n : Int := item.2
  let info := { item.1 with nRandomPos := s.vRandom.length }
  let s := { s with
    mapInfo := s.mapInfo.insert n info
    mapAddr := s.mapAddr.insert info.toCNetAddr n
    vRandom := s.vRandom ++ [n] }
  if fRebucket then
    let b := info.getNewBucket crypto s.nKey info.source
    (s.modifyInfo n addRef).setNew b ((s.vvNew b).insert n)
  else s

/-- A tried entry is read; it is lost if its bucket is full. -/
def loadTried (s : CAddrMan) (info : CAddrInfo) : CAddrMan :=
  let b := info.getTriedBucket crypto s.nKey
  if (s.vvTried b).length < 64 then
    let info := { info with nRandomPos := s.vRandom.length, fInTried := true }
    { s with
      vRandom := s.vRandom ++ [s.nIdCount]
      mapInfo := s.mapInfo.insert s.nIdCount info
      mapAddr := s.mapAddr.insert info.toCNetAddr s.nIdCount
      vvTried := update s.vvTried b (s.vvTried b ++ [s.nIdCount])
      nIdCount := s.nIdCount + 1 }
  else { s with nTried := s.nTried - 1 }

/-- An index of a new bucket is read. `mapInfo[nIndex]` makes an entry if there is none. -/
def loadIndex (fKnown : Bool) (s : CAddrMan) (item : Fin 256 × Int32) : CAddrMan :=
  let nIndex := item.2.toInt
  let info := s.mapInfo.getD nIndex CAddrInfo.null
  if fKnown ∧ info.nRefCount < 4 then
    { s with mapInfo := s.mapInfo.insert nIndex (addRef info) }.setNew item.1
      ((s.vvNew item.1).insert nIndex)
  else { s with mapInfo := s.mapInfo.insert nIndex info }

/-- The buckets with their indices, one after the other. -/
def indices (vvIndex : List (List Int32)) : List (Fin 256 × Int32) :=
  vvIndex.zipIdx.flatMap fun item => item.1.map fun nIndex => (CAddrInfo.newBucket item.2, nIndex)

/-- What is made of what is read. -/
def load (d : AddrManData) : CAddrMan :=
  let fKnown := d.nUBuckets == 256
  let s := { new d.nKey with nNew := d.nNew, nTried := d.nTried }
  let s := d.vInfoNew.zipIdx.foldl (loadNew crypto (!fKnown)) s
  let s := d.vInfoTried.foldl (loadTried crypto) { s with nIdCount := d.nNew.toInt }
  (indices d.vvIndex).foldl (loadIndex fKnown) s

def unserialize {σ : Type} [ByteStream σ] : Reader σ CAddrMan := do
  let d ← AddrManData.unserialize
  return load crypto d

/-! ## The size -/

/-- What the other branch goes by while the size is computed: the counters of the state, but nothing
read, so `nUBuckets` stays 0 and the entries are those it has just made. -/
def sizeData (s : CAddrMan) : AddrManData :=
  { nKey := s.nKey, nNew := s.nNew, nTried := s.nTried, nUBuckets := 0,
    vInfoNew := List.replicate (AddrManData.rounds s.nNew) CAddrInfo.null
    vInfoTried := List.replicate (AddrManData.rounds s.nTried) CAddrInfo.null
    vvIndex := [] }

/-- `GetSerializeSize`, with the state after it. `fWrite` is false here too, so the body of
`Unserialize` runs, through `const_cast`. -/
def getSerializeSize (s : CAddrMan) : UInt32 × CAddrMan :=
  (UInt32.ofNat s.sizeData.serialize.length, load crypto s.sizeData)

end CAddrMan

end NovaCoin
