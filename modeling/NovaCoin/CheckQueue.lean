import Mathlib.Data.List.Basic

/-!
# The queue of script checks

`CCheckQueue` (`checkqueue.h`). The master adds checks and then joins the workers until all checks
are done. What a thread does while it holds the mutex is one step, running one check of its batch is
another, and the steps of the threads come in any order.

There is no shutdown. `queue` is a stack, with its top first. The counters are numbers without a
bound: fewer than 2³¹ threads, and fewer than 2³² checks that are not done, which `nTodo` counts.
-/

namespace NovaCoin

structure CCheckQueue (T : Type) where
  queue : List T
  nIdle : Nat
  nTotal : Nat
  fAllOk : Bool
  nTodo : Nat
  fQuit : Bool
  nBatchSize : Nat

variable {T : Type}

namespace CCheckQueue

/-- `CCheckQueue(nBatchSizeIn)`. -/
def new (nBatchSize : Nat) : CCheckQueue T := ⟨[], 0, 0, true, 0, false, nBatchSize⟩

def isIdle (q : CCheckQueue T) : Bool := q.nTotal == q.nIdle && q.nTodo == 0 && q.fAllOk

/-- `Add`, without the notifications. -/
def add (q : CCheckQueue T) (vChecks : List T) : CCheckQueue T :=
  { q with
    queue := vChecks.foldl (fun queue check => check :: queue) q.queue
    nTodo := q.nTodo + vChecks.length }

/-- The clean-up of the previous loop run. -/
def cleanUp (q : CCheckQueue T) (nNow : Nat) (fOk : Bool) : CCheckQueue T :=
  { q with fAllOk := q.fAllOk && fOk, nTodo := q.nTodo - nNow }

/-- How many work units to process now. -/
def nNow (q : CCheckQueue T) : Nat :=
  max 1 (min q.nBatchSize (q.queue.length / (q.nTotal + q.nIdle + 1)))

/-- How a thread lets the mutex go. -/
inductive Turn (T : Type)
  | returns (fRet : Bool)
  | waits
  | runs (vChecks : List T) (fOk : Bool)

/-- From `while (queue.empty())` on, to which a thread that wakes up comes back. -/
def turn (q : CCheckQueue T) (fMaster : Bool) : CCheckQueue T × Turn T :=
  if q.queue.isEmpty then
    if (fMaster || q.fQuit) && q.nTodo == 0 then
      ({ q with nTotal := q.nTotal - 1, fAllOk := if fMaster then true else q.fAllOk },
        .returns q.fAllOk)
    else ({ q with nIdle := q.nIdle + 1 }, .waits)
  else ({ q with queue := q.queue.drop q.nNow }, .runs (q.queue.take q.nNow) q.fAllOk)

end CCheckQueue

/-! ## Threads -/

/-- Where a thread is in `Loop`. -/
inductive LoopThread (T : Type)
  /-- before the first critical section -/
  | start
  /-- in `cond.wait` -/
  | waiting (fNotified : Bool)
  /-- with a batch of `nNow` checks, of which the last ones are still to be run -/
  | executing (nNow : Nat) (fOk : Bool) (rest : List T)
  /-- `Loop` has returned -/
  | ended

namespace LoopThread

/-- `fOk` and the rest of the batch after one more check. -/
def execute (check : T → Bool) : LoopThread T → Option (LoopThread T)
  | executing nNow fOk (c :: rest) => some (executing nNow (if fOk then check c else fOk) rest)
  | _ => none

def notify : LoopThread T → LoopThread T
  | waiting _ => waiting true
  | t => t

def isUnnotified : LoopThread T → Bool
  | waiting fNotified => !fNotified
  | _ => false

def ofTurn : CCheckQueue.Turn T → LoopThread T
  | .returns _ => ended
  | .waits => waiting false
  | .runs vChecks fOk => executing vChecks.length fOk vChecks

/-- The queue as a thread that has the mutex finds it at the condition of the inner loop: at first,
after its batch, or when it wakes up. -/
def enter (q : CCheckQueue T) : LoopThread T → Option (CCheckQueue T)
  | start => some { q with nTotal := q.nTotal + 1 }
  | waiting _ => some { q with nIdle := q.nIdle - 1 }
  | executing nNow fOk [] => some (q.cleanUp nNow fOk)
  | _ => none

/-- `if (nTodo == 0 && !fMaster)`, after the clean-up. -/
def notifiesMaster (q : CCheckQueue T) : LoopThread T → Bool
  | executing nNow fOk [] => (q.cleanUp nNow fOk).nTodo == 0
  | _ => false

end LoopThread

/-- `condWorker.notify_one()`. Which thread is notified makes no difference: one may also wake up by
itself. -/
def notifyOne {T : Type} : List (LoopThread T) → List (LoopThread T)
  | [] => []
  | t :: workers => if t.isUnnotified then t.notify :: workers else t :: notifyOne workers

/-! ## The system -/

/-- The master: not in `Wait`, with what the last call returned, or in `Loop`. -/
inductive Master (T : Type)
  | outside (fRet : Option Bool)
  | inWait (t : LoopThread T)

structure CheckSystem (T : Type) where
  q : CCheckQueue T
  master : Master T
  workers : List (LoopThread T)
  /-- the checks added since the previous `Wait` returned; no step reads this -/
  vAdded : List T

inductive CheckThread
  | master
  | worker (i : Nat)
  deriving DecidableEq

inductive CheckStep (T : Type)
  /-- the master calls `Add` -/
  | add (vChecks : List T)
  /-- the master calls `Wait` -/
  | wait
  /-- a thread has the mutex -/
  | lock (t : CheckThread)
  /-- a thread runs the next check of its batch -/
  | execute (t : CheckThread)

namespace CheckSystem

/-- A new queue, and threads that have not come to it yet. -/
def init (nBatchSize nWorkers : Nat) : CheckSystem T :=
  ⟨.new nBatchSize, .outside none, List.replicate nWorkers .start, []⟩

def thread (s : CheckSystem T) : CheckThread → Option (LoopThread T)
  | .master => match s.master with
    | .outside _ => none
    | .inWait t => some t
  | .worker i => s.workers[i]?

/-- The master is told that the last check is done. -/
def notifyMaster (s : CheckSystem T) (fNotify : Bool) : CheckSystem T :=
  match s.master with
  | .inWait t => if fNotify then { s with master := .inWait t.notify } else s
  | .outside _ => s

def add (s : CheckSystem T) (vChecks : List T) : CheckSystem T :=
  { s with
    q := s.q.add vChecks
    workers :=
      if vChecks.length = 1 then notifyOne s.workers
      else if 1 < vChecks.length then s.workers.map LoopThread.notify
      else s.workers
    vAdded := s.vAdded ++ vChecks }

/-- The master lets the mutex go. When `Wait` returns, the next round begins. -/
def masterTurn (s : CheckSystem T) (q : CCheckQueue T) : CheckSystem T :=
  match q.turn true with
  | (q, .returns fRet) => { s with q, master := .outside (some fRet), vAdded := [] }
  | (q, turn) => { s with q, master := .inWait (.ofTurn turn) }

/-- A worker lets the mutex go. -/
def workerTurn (s : CheckSystem T) (q : CCheckQueue T) (i : Nat) : CheckSystem T :=
  { s with q := (q.turn false).1, workers := s.workers.set i (.ofTurn (q.turn false).2) }

def lock (s : CheckSystem T) (id : CheckThread) : Option (CheckSystem T) := do
  let t ← s.thread id
  let q ← t.enter s.q
  match id with
  | .master => some (s.masterTurn q)
  | .worker i => some ((s.notifyMaster (t.notifiesMaster s.q)).workerTurn q i)

def execute (check : T → Bool) (s : CheckSystem T) (id : CheckThread) : Option (CheckSystem T) := do
  let t ← s.thread id
  let t ← t.execute check
  match id with
  | .master => some { s with master := .inWait t }
  | .worker i => some { s with workers := s.workers.set i t }

/-- One step, if it can be taken. -/
def step (check : T → Bool) (s : CheckSystem T) : CheckStep T → Option (CheckSystem T)
  | .add vChecks => match s.master with
    | .outside _ => some (s.add vChecks)
    | .inWait _ => none
  | .wait => match s.master with
    | .outside _ => some { s with master := .inWait .start }
    | .inWait _ => none
  | .lock id => s.lock id
  | .execute id => s.execute check id

end CheckSystem

end NovaCoin
