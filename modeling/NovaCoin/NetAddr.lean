import NovaCoin.Serialize

/-!
# Network addresses

`CNetAddr` and `CService` (`netbase.h`, `netbase.cpp`), `CAddress` (`protocol.h`) and `CAddrInfo`
(`addrman.h`): what the address manager reads of an address. An address is routable or not, belongs
to a group, and with a key the groups and the address select a bucket.
-/

namespace NovaCoin

/-! ## `CNetAddr` -/

/-- `ip` is in network byte order; an IPv4 address is mapped into the IPv6 space. -/
structure CNetAddr where
  ip : List UInt8
  length_ip : ip.length = 16
  deriving DecidableEq

def pchIPv4 : List UInt8 := [0, 0, 0, 0, 0, 0, 0, 0, 0, 0, 0xff, 0xff]

def pchOnionCat : List UInt8 := [0xFD, 0x87, 0xD8, 0x7E, 0xEB, 0x43]

def pchGarliCat : List UInt8 := [0xFD, 0x60, 0xDB, 0x4D, 0xDD, 0xB5]

def NET_UNROUTABLE : UInt8 := 0

def NET_IPV4 : UInt8 := 1

def NET_IPV6 : UInt8 := 2

def NET_TOR : UInt8 := 3

def NET_I2P : UInt8 := 4

namespace CNetAddr

variable (addr : CNetAddr)

/-- `memcmp(ip, pch, sizeof(pch)) == 0`. -/
def startsWith (pch : List UInt8) : Bool := addr.ip.take pch.length == pch

/-- The bytes from the last one on. -/
def getByte (n : Nat) : UInt8 := addr.ip.getD (15 - n) 0

def isIPv4 : Bool := addr.startsWith pchIPv4

def isRFC1918 : Bool :=
  addr.isIPv4 && (addr.getByte 3 == 10 || (addr.getByte 3 == 192 && addr.getByte 2 == 168) ||
    (addr.getByte 3 == 172 && (16 ≤ addr.getByte 2 && addr.getByte 2 ≤ 31)))

def isRFC3927 : Bool := addr.isIPv4 && (addr.getByte 3 == 169 && addr.getByte 2 == 254)

def isRFC3849 : Bool :=
  addr.getByte 15 == 0x20 && addr.getByte 14 == 0x01 && addr.getByte 13 == 0x0D &&
    addr.getByte 12 == 0xB8

def isRFC3964 : Bool := addr.getByte 15 == 0x20 && addr.getByte 14 == 0x02

def isRFC6052 : Bool := addr.startsWith [0, 0x64, 0xFF, 0x9B, 0, 0, 0, 0, 0, 0, 0, 0]

def isRFC4380 : Bool :=
  addr.getByte 15 == 0x20 && addr.getByte 14 == 0x01 && addr.getByte 13 == 0 && addr.getByte 12 == 0

def isRFC4862 : Bool := addr.startsWith [0xFE, 0x80, 0, 0, 0, 0, 0, 0]

def isRFC4193 : Bool := addr.getByte 15 &&& 0xFE == 0xFC

def isRFC6145 : Bool := addr.startsWith [0, 0, 0, 0, 0, 0, 0, 0, 0xFF, 0xFF, 0, 0]

def isRFC4843 : Bool :=
  addr.getByte 15 == 0x20 && addr.getByte 14 == 0x01 && addr.getByte 13 == 0x00 &&
    addr.getByte 12 &&& 0xF0 == 0x10

def isTor : Bool := addr.startsWith pchOnionCat

def isI2P : Bool := addr.startsWith pchGarliCat

def isLocal : Bool :=
  (addr.isIPv4 && (addr.getByte 3 == 127 || addr.getByte 3 == 0)) ||
    addr.startsWith [0, 0, 0, 0, 0, 0, 0, 0, 0, 0, 0, 0, 0, 0, 0, 1]

/-- The first test is for addresses shifted by three bytes, of old `addr` messages. -/
def isValid : Bool :=
  !addr.startsWith (pchIPv4.drop 3) && !addr.startsWith (List.replicate 16 0) && !addr.isRFC3849 &&
    !(addr.isIPv4 && (addr.ip.drop 12 == [0xff, 0xff, 0xff, 0xff] || addr.ip.drop 12 == [0, 0, 0, 0]))

def isRoutable : Bool :=
  addr.isValid && !(addr.isRFC1918 || addr.isRFC3927 || addr.isRFC4862 ||
    (addr.isRFC4193 && !addr.isTor && !addr.isI2P) || addr.isRFC4843 || addr.isLocal)

/-- The end of `GetGroup`: the class and the first bits from a byte on. -/
def groupBytes (nClass : UInt8) (nStartByte nBits : Nat) : List UInt8 :=
  nClass :: (List.range (nBits / 8)).map (fun i => addr.getByte (15 - (nStartByte + i))) ++
    (if 0 < nBits % 8 then
      [addr.getByte (15 - (nStartByte + nBits / 8)) ||| UInt8.ofNat (2 ^ (nBits % 8) - 1)]
    else [])

/-- `CNetAddr::GetGroup`. The class 255 of local addresses is overwritten at once. -/
def getGroup : List UInt8 :=
  if !addr.isRoutable then addr.groupBytes NET_UNROUTABLE 0 0
  else if addr.isIPv4 || addr.isRFC6145 || addr.isRFC6052 then addr.groupBytes NET_IPV4 12 16
  else if addr.isRFC3964 then addr.groupBytes NET_IPV4 2 16
  else if addr.isRFC4380 then [NET_IPV4, addr.getByte 3 ^^^ 0xFF, addr.getByte 2 ^^^ 0xFF]
  else if addr.isTor then addr.groupBytes NET_TOR 6 4
  else if addr.isI2P then addr.groupBytes NET_I2P 6 4
  else if addr.getByte 15 == 0x20 && addr.getByte 14 == 0x01 && addr.getByte 13 == 0x04 &&
      addr.getByte 12 == 0x70 then addr.groupBytes NET_IPV6 0 36
  else addr.groupBytes NET_IPV6 0 32

end CNetAddr

/-! ## Addresses with a port, and what is known about them -/

structure CService extends CNetAddr where
  port : UInt16
  deriving DecidableEq

def CService.getKey (addr : CService) : List UInt8 :=
  addr.ip ++ [(addr.port / 0x100).toUInt8, (addr.port &&& 0x0FF).toUInt8]

structure CAddress extends CService where
  nServices : UInt64
  nTime : UInt32
  nLastTry : Int64
  deriving DecidableEq

/-- `CAddress::CAddress()`: no address, a long time ago. -/
def CAddress.null : CAddress :=
  { ip := List.replicate 16 0, length_ip := rfl, port := 0, nServices := 1, nTime := 100000000,
    nLastTry := 0 }

/-- `nRefCount`, `fInTried` and `nRandomPos` are in memory only. -/
structure CAddrInfo extends CAddress where
  source : CNetAddr
  nLastSuccess : Int64
  nAttempts : Int32
  nRefCount : Int
  fInTried : Bool
  nRandomPos : Int
  deriving DecidableEq

namespace CAddrInfo

/-- The constructor; `Init` clears the time of the last try as well. -/
def new (addrIn : CAddress) (addrSource : CNetAddr) : CAddrInfo :=
  { toCAddress := { addrIn with nLastTry := 0 }, source := addrSource, nLastSuccess := 0,
    nAttempts := 0, nRefCount := 0, fInTried := false, nRandomPos := -1 }

/-- A number modulo `ADDRMAN_TRIED_BUCKET_COUNT`. -/
def triedBucket (n : Nat) : Fin 64 := Fin.ofNat 64 n

/-- A number modulo `ADDRMAN_NEW_BUCKET_COUNT`. -/
def newBucket (n : Nat) : Fin 256 := Fin.ofNat 256 n

section Buckets

variable (crypto : Crypto) (info : CAddrInfo) (nKey : List UInt8)

/-- `Hash(ss.begin(), ss.end()).Get64()`. -/
def hash64 (ss : List UInt8) : Nat := (crypto.hash ss).toNat % 2 ^ 64

def getTriedBucket : Fin 64 :=
  let hash1 := hash64 crypto (serializeBytes nKey ++ serializeBytes info.getKey)
  let hash2 := hash64 crypto
    (serializeBytes nKey ++ serializeBytes info.getGroup ++ leBytes 8 (hash1 % 4))
  triedBucket hash2

def getNewBucket (src : CNetAddr) : Fin 256 :=
  let hash1 := hash64 crypto
    (serializeBytes nKey ++ serializeBytes info.getGroup ++ serializeBytes src.getGroup)
  let hash2 := hash64 crypto
    (serializeBytes nKey ++ serializeBytes src.getGroup ++ leBytes 8 (hash1 % 32))
  newBucket hash2

end Buckets

def nOneHour : Int64 := 60 * 60

def nOneDay : Int64 := 24 * 60 * 60

/-- An `unsigned int` time among times of 64 bits. -/
def time64 (nTime : UInt32) : Int64 := nTime.toUInt64.toInt64

/-- `CAddrInfo::IsTerrible`: bad enough to be deleted. -/
def isTerrible (info : CAddrInfo) (nNow : Int64) : Bool :=
  -- things tried in the last minute are kept
  if info.nLastTry ≠ 0 ∧ nNow - 60 ≤ info.nLastTry then false
  else
    nNow + 10 * 60 < time64 info.nTime ||
    (info.nTime == 0 || 30 * nOneDay < nNow - time64 info.nTime) ||
    (info.nLastSuccess == 0 && 3 ≤ info.nAttempts) ||
    (7 * nOneDay < nNow - info.nLastSuccess && 10 ≤ info.nAttempts)

end CAddrInfo

end NovaCoin
