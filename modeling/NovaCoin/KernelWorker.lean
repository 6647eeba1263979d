import NovaCoin.BestChain

/-!
# Scanning for kernels

`KernelWorker` (`kernel_worker.cpp`) and `ScanKernelForward` (`kernel.cpp`), without a request to
shut down.
-/

namespace NovaCoin

def nStakeMaxAge : Int := 90 * nOneDay

def getWeight (fTestNet : Bool) (nIntervalBeginning nIntervalEnd : UInt32) : Int :=
  min ((nIntervalEnd.toNat : Int) - nIntervalBeginning.toNat - nStakeMinAge fTestNet) nStakeMaxAge

/-- What the workers share. `kernel` is modifier, block time, offset, time and output number. -/
structure KernelScan where
  fTestNet : Bool
  crypto : Crypto
  kernel : List UInt8
  nBits : UInt32
  nInputTxTime : UInt32
  nValueIn : Int64

/-- A worker at `nTimeTx` of its loop. -/
structure KernelWorker where
  nTimeTx : UInt32
  nIntervalEnd : UInt32
  solutions : List (Uint256 × UInt32)

/-- The timestamps from `nBegin` up to `nEnd`. -/
def scanTimes (nBegin nEnd : Nat) : List UInt32 :=
  (List.range' nBegin (nEnd - nBegin)).map UInt32.ofNat

namespace KernelScan

variable (scan : KernelScan)

def nMaxTarget : Uint256 :=
  getuint256 (((setCompact scan.nBits * scan.nValueIn.toInt * nStakeMaxAge).tdiv COIN.toInt).tdiv
    nOneDay)

def bnTargetProofOfStake (nTimeTx : UInt32) : Int :=
  ((scan.nValueIn.toInt * getWeight scan.fTestNet scan.nInputTxTime nTimeTx).tdiv COIN.toInt).tdiv
    nOneDay * setCompact scan.nBits

/-- The body of the loop. Of the maximum target only the highest 32 bits are compared. -/
def tryTime (nTimeTx : UInt32) : Option (Uint256 × UInt32) :=
  let hashProofOfStake := scan.crypto.hash (scan.kernel ++ leBytes 4 nTimeTx.toNat)
  if scan.nMaxTarget.extractLsb' 224 32 < hashProofOfStake.extractLsb' 224 32 then none
  else if hashProofOfStake.toNat ≤ scan.bnTargetProofOfStake nTimeTx then
    some (hashProofOfStake, nTimeTx)
  else none

/-- One round of `Do_generic`, if there is one left. -/
def step (worker : KernelWorker) : KernelWorker :=
  if worker.nTimeTx < worker.nIntervalEnd then
    { worker with
      nTimeTx := worker.nTimeTx + 1
      solutions := worker.solutions ++ (scan.tryTime worker.nTimeTx).toList }
  else worker

end KernelScan

/-- The interval of `ScanKernelForward`, and what `hardware_concurrency` returns. -/
structure SearchInterval where
  first : UInt32
  second : UInt32
  nConcurrency : UInt32

namespace SearchInterval

variable (s : SearchInterval)

def nThreads : Nat := if s.nConcurrency = 0 then 1 else s.nConcurrency.toNat

def nPart : UInt32 := (s.second - s.first) / UInt32.ofNat s.nThreads

/-- `nBegin` of the `i`-th worker, and `nEnd` of the one before it. -/
def nBegin (i : Nat) : UInt32 := s.first + s.nPart * UInt32.ofNat i

end SearchInterval

/-- `ScanKernelForward`: `schedule` says which worker has the next round, until `join_all`. -/
def KernelScan.scanKernelForward (scan : KernelScan) (s : SearchInterval) (schedule : List Nat) :
    Bool × List (Uint256 × UInt32) :=
  let workers := schedule.foldl (fun workers i => workers.modify i scan.step)
    ((List.range s.nThreads).map fun i => ⟨s.nBegin i, s.nBegin (i + 1), []⟩)
  let solutions := workers.flatMap (·.solutions)
  (!solutions.isEmpty, solutions)

end NovaCoin
