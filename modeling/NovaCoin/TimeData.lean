import Mathlib.Data.List.Sort
import NovaCoin.NetAddr

/-!
# The network time

`CMedianFilter` (`timedata.h`), `GetTimeOffset` and `AddTimeData` (`timedata.cpp`): every peer that
connects tells its time, and the median of the offsets from the own clock corrects it. The static
variables of `AddTimeData` are part of the state; `now` is what `GetTime()` returns during the call.

`int64_t` is `Int64`: differences wrap, and `std::abs` of the least number is this number.
-/

namespace NovaCoin

/-! ## The median filter -/

structure CMedianFilter (T : Type) where
  vValues : List T
  vSorted : List T
  nSize : Nat

namespace CMedianFilter

variable {T : Type}

/-- `CMedianFilter(size, initial_value)`. -/
def init (size : Nat) (initial_value : T) : CMedianFilter T :=
  ⟨[initial_value], [initial_value], size⟩

/-- The values after the next one: a full filter loses its oldest one. -/
def shift {α : Type} (nSize : Nat) (vValues : List α) (value : α) : List α :=
  (if vValues.length = nSize then vValues.tail else vValues) ++ [value]

def input [LE T] [DecidableLE T] (filter : CMedianFilter T) (value : T) : CMedianFilter T :=
  let vValues := shift filter.nSize filter.vValues value
  { filter with vValues, vSorted := vValues.insertionSort (· ≤ ·) }

/-- `median`. The filter is never empty, which is asserted. -/
def median [Inhabited T] [Add T] [Div T] [OfNat T 2] (filter : CMedianFilter T) : T :=
  let size := filter.vSorted.length
  let at' (i : Nat) : T := filter.vSorted.getD i default
  if size % 2 = 1 then at' (size / 2) else (at' (size / 2 - 1) + at' (size / 2)) / 2

def size (filter : CMedianFilter T) : Nat := filter.vValues.length

end CMedianFilter

/-! ## The offset -/

def NOVACOIN_TIMEDATA_MAX_SAMPLES : Nat := 200

/-- The statics of `timedata.cpp` and of `AddTimeData`. -/
structure TimeData where
  nNodesOffset : Int64
  setKnown : List CNetAddr
  vTimeOffsets : CMedianFilter Int64
  fDone : Bool
  strMiscWarning : String

namespace TimeData

/-- The state at the start. No offset is the greatest `int64_t`. -/
def init : TimeData where
  nNodesOffset := Int64.maxValue
  setKnown := []
  vTimeOffsets := .init NOVACOIN_TIMEDATA_MAX_SAMPLES 0
  fDone := false
  strMiscWarning := ""

def getTimeOffset (t : TimeData) (nNtpOffset : Int64) : Int64 :=
  if nNtpOffset.abs < 40 * 60 then nNtpOffset
  else if t.nNodesOffset.abs < 70 * 60 then t.nNodesOffset
  else 0

def strClockWarning : String :=
  "Warning: Please check that your computer's date and time are correct! If your clock is wrong NovaCoin will not work properly."

/-- Whether the sample of an address is added. -/
def accepts (t : TimeData) (ip : CNetAddr) : Bool :=
  !(t.setKnown.length == NOVACOIN_TIMEDATA_MAX_SAMPLES) && !t.setKnown.contains ip

/-- Whether the median is looked at. -/
def consulted (vTimeOffsets : CMedianFilter Int64) : Bool :=
  5 ≤ vTimeOffsets.size && vTimeOffsets.size % 2 == 1

/-- What is done with the median. The warning is given once, if nobody has a time within five
minutes of ours. -/
def setNodesOffset (t : TimeData) : TimeData :=
  let nMedian := t.vTimeOffsets.median
  if nMedian.abs < 70 * 60 then { t with nNodesOffset := nMedian }
  else
    let t := { t with nNodesOffset := Int64.maxValue }
    let fMatch := t.vTimeOffsets.vSorted.any fun nOffset => nOffset != 0 && nOffset.abs < 5 * 60
    if t.fDone || fMatch then t else { t with fDone := true, strMiscWarning := strClockWarning }

def addTimeData (t : TimeData) (ip : CNetAddr) (nTime now : Int64) : TimeData :=
  let nOffsetSample := nTime - now
  if !t.accepts ip then t
  else
    let vTimeOffsets := t.vTimeOffsets.input nOffsetSample
    let t := { t with setKnown := ip :: t.setKnown, vTimeOffsets }
    if consulted vTimeOffsets then t.setNodesOffset else t

end TimeData

end NovaCoin
