import Mathlib.Order.Lattice.Nat
import NovaCoin.Infra.AssocMap

/-!
# The key pool

`CWallet::NewKeyPool`, `TopUpKeyPool`, `ReserveKeyFromKeyPool`, `KeepKey`, `ReturnKey` and
`GetKeyFromPool`, and the `CReserveKey` objects that hold a reservation (`wallet.cpp`). A reserved
index leaves `setKeyPool`, and its record in the wallet database stays.

The wallet is backed by a file, and writes to it succeed. `generated n` is the key that the `n`-th
call of `GenerateNewKey` makes. The index -1, for no key, is `none`.
-/

namespace NovaCoin

/-- What the key pool is made of in `CWallet`. -/
structure KeyPoolWallet (K : Type) where
  setKeyPool : Finset Nat
  /-- the `pool` records of the database -/
  mapPool : AList fun _ : Nat => K
  /-- the public keys of the key store -/
  vKeys : List K
  /-- `none` if it is not valid -/
  vchDefaultKey : Option K
  /-- how often `GenerateNewKey` was called -/
  nGenerated : Nat
  /-- `max<uint64_t>(GetArg("-keypool", 100), 0)` -/
  nKeyPool : UInt64

/-- What `ReserveKeyFromKeyPool` comes to: no key, a key, or an exception after the index was taken.
-/
inductive Reserved (K : Type)
  | none
  | key (nIndex : Nat) (vchPubKey : K)
  | failed (nIndex : Nat)

namespace KeyPoolWallet

variable {K : Type} (generated : Nat → K)

/-- `walletdb.WritePool(nIndex, CKeyPool(GenerateNewKey()))`, and the index to the set. -/
def addToPool (w : KeyPoolWallet K) (nIndex : Nat) : KeyPoolWallet K :=
  { w with
    setKeyPool := insert nIndex w.setKeyPool
    mapPool := w.mapPool.insert nIndex (generated w.nGenerated)
    vKeys := generated w.nGenerated :: w.vKeys
    nGenerated := w.nGenerated + 1 }

/-- `nSize`, or the option if there is none. -/
def nTargetSize (w : KeyPoolWallet K) (nSize : UInt32) : UInt64 :=
  if 0 < nSize then nSize.toUInt64 else w.nKeyPool

/-- The records of the set are erased, and the set is empty then. -/
def clearPool (w : KeyPoolWallet K) : KeyPoolWallet K :=
  { w with
    setKeyPool := ∅
    mapPool := AssocMap.filter (fun nIndex _ => decide (nIndex ∉ w.setKeyPool)) w.mapPool }

/-- The loop of `NewKeyPool`, for so many more keys from `i` on. -/
def newKeys (w : KeyPoolWallet K) (i : Nat) : Nat → KeyPoolWallet K
  | 0 => w
  | n + 1 => newKeys (w.addToPool generated (i + 1)) (i + 1) n

def newKeyPool (w : KeyPoolWallet K) (fLocked : Bool) (nSize : UInt32) : KeyPoolWallet K :=
  if fLocked then w.clearPool
  else w.clearPool.newKeys generated 0 (w.nTargetSize nSize).toNat

/-- One more than the last index, and 1 if there is none. -/
def nEnd (w : KeyPoolWallet K) : Nat := w.setKeyPool.sup id + 1

/-- The loop of `TopUpKeyPool`, for so many rounds; each adds an index. -/
def topUpLoop (w : KeyPoolWallet K) : Nat → KeyPoolWallet K
  | 0 => w
  | n + 1 => topUpLoop (w.addToPool generated w.nEnd) n

/-- How many keys are missing: `while (setKeyPool.size() < (nTargetSize + 1))`. -/
def nMissing (w : KeyPoolWallet K) (nSize : UInt32) : Nat :=
  (w.nTargetSize nSize + 1).toNat - w.setKeyPool.card

def topUpKeyPool (w : KeyPoolWallet K) (fLocked : Bool) (nSize : UInt32) : KeyPoolWallet K :=
  if fLocked then w else w.topUpLoop generated (w.nMissing nSize)

/-- `ReserveKeyFromKeyPool`, after the pool was topped up. -/
def reserveOldest [DecidableEq K] (w : KeyPoolWallet K) : KeyPoolWallet K × Reserved K :=
  if h : w.setKeyPool.Nonempty then
    let nIndex := w.setKeyPool.min' h
    let w := { w with setKeyPool := w.setKeyPool.erase nIndex }
    match w.mapPool.lookup nIndex with
    | some vchPubKey =>
      if w.vKeys.elem vchPubKey then (w, .key nIndex vchPubKey) else (w, .failed nIndex)
    | none => (w, .failed nIndex)
  else (w, .none)

def reserveKeyFromKeyPool [DecidableEq K] (w : KeyPoolWallet K) (fLocked : Bool) :
    KeyPoolWallet K × Reserved K :=
  reserveOldest (w.topUpKeyPool generated fLocked 0)

def keepKey (w : KeyPoolWallet K) (nIndex : Nat) : KeyPoolWallet K :=
  { w with mapPool := w.mapPool.erase nIndex }

def returnKey (w : KeyPoolWallet K) (nIndex : Nat) : KeyPoolWallet K :=
  { w with setKeyPool := insert nIndex w.setKeyPool }

/-- `GetKeyFromPool` without a key in the pool. -/
def getKeyWithoutPool (w : KeyPoolWallet K) (fLocked fAllowReuse : Bool) :
    KeyPoolWallet K × Option K :=
  if fAllowReuse && w.vchDefaultKey.isSome then (w, w.vchDefaultKey)
  else if fLocked then (w, none)
  else
    ({ w with
        vKeys := generated w.nGenerated :: w.vKeys
        nGenerated := w.nGenerated + 1 },
      some (generated w.nGenerated))

/-- `GetKeyFromPool`: with no result if it returns `false` or throws. -/
def getKeyFromPool [DecidableEq K] (w : KeyPoolWallet K) (fLocked fAllowReuse : Bool) :
    KeyPoolWallet K × Option K :=
  match w.reserveKeyFromKeyPool generated fLocked with
  | (w, .none) => w.getKeyWithoutPool generated fLocked fAllowReuse
  | (w, .key nIndex vchPubKey) => (w.keepKey nIndex, some vchPubKey)
  | (w, .failed _) => (w, none)

end KeyPoolWallet

/-! ## Reservations -/

structure CReserveKey (K : Type) where
  nIndex : Option Nat
  vchPubKey : Option K
  deriving DecidableEq

/-- `CReserveKey(pwalletIn)`. -/
def CReserveKey.new {K : Type} : CReserveKey K := ⟨none, none⟩

/-- What has happened to a key. -/
inductive KeyEvent (K : Type)
  /-- `GetReservedKey` returned it -/
  | reserved (vchPubKey : K)
  /-- its holder called `KeepKey` -/
  | kept (vchPubKey : K)
  /-- `GetKeyFromPool` returned it -/
  | fromPool (vchPubKey : K)
  deriving DecidableEq

/-- The wallet and everyone who has a `CReserveKey`. -/
structure KeyPoolSystem (K : Type) where
  wallet : KeyPoolWallet K
  holders : Nat → CReserveKey K
  /-- the last first; no step reads this -/
  history : List (KeyEvent K)

/-- A call; the destructor of a holder is `returnKey`. -/
inductive KeyPoolOp
  | getReservedKey (id : Nat)
  | keepKey (id : Nat)
  | returnKey (id : Nat)
  | topUpKeyPool (nSize : UInt32)
  | newKeyPool (nSize : UInt32)
  | getKeyFromPool (fAllowReuse : Bool)

structure KeyPoolCall where
  /-- `IsLocked()` -/
  fLocked : Bool
  op : KeyPoolOp

namespace KeyPoolSystem

variable {K : Type} (generated : Nat → K)

/-- A wallet just loaded from a database with these records. -/
def load (mapPool : AList fun _ : Nat => K) (vchDefaultKey : Option K) (nKeyPool : UInt64) :
    KeyPoolSystem K where
  wallet :=
    { setKeyPool := mapPool.keys.toFinset
      mapPool
      vKeys := mapPool.entries.map fun item => item.2
      vchDefaultKey
      nGenerated := 0
      nKeyPool }
  holders := fun _ => .new
  history := []

/-- The reference `nIndex` is set also if the call throws, `vchPubKey` is not. -/
def getReservedKey [DecidableEq K] (s : KeyPoolSystem K) (fLocked : Bool) (id : Nat) :
    Option (KeyPoolSystem K) :=
  match (s.holders id).nIndex with
  | some _ => match (s.holders id).vchPubKey with
    | some vchPubKey => some { s with history := .reserved vchPubKey :: s.history }
    | none => none
  | none => match s.wallet.reserveKeyFromKeyPool generated fLocked with
    | (wallet, .key nIndex vchPubKey) => some
      { wallet
        holders := Function.update s.holders id ⟨some nIndex, some vchPubKey⟩
        history := .reserved vchPubKey :: s.history }
    | (wallet, .failed nIndex) => some
      { s with
        wallet
        holders := Function.update s.holders id ⟨some nIndex, (s.holders id).vchPubKey⟩ }
    | (wallet, .none) => match wallet.vchDefaultKey with
      | some vchPubKey => some
        { wallet
          holders := Function.update s.holders id ⟨none, some vchPubKey⟩
          history := .reserved vchPubKey :: s.history }
      | none => none

def keepKey (s : KeyPoolSystem K) (id : Nat) : KeyPoolSystem K where
  wallet := match (s.holders id).nIndex with
    | some nIndex => s.wallet.keepKey nIndex
    | none => s.wallet
  holders := Function.update s.holders id .new
  history := match (s.holders id).vchPubKey with
    | some vchPubKey => .kept vchPubKey :: s.history
    | none => s.history

def returnKey (s : KeyPoolSystem K) (id : Nat) : KeyPoolSystem K :=
  { s with
    wallet := match (s.holders id).nIndex with
      | some nIndex => s.wallet.returnKey nIndex
      | none => s.wallet
    holders := Function.update s.holders id .new }

def getKeyFromPool [DecidableEq K] (s : KeyPoolSystem K) (fLocked fAllowReuse : Bool) :
    KeyPoolSystem K :=
  match s.wallet.getKeyFromPool generated fLocked fAllowReuse with
  | (wallet, some vchPubKey) =>
    { s with wallet, history := .fromPool vchPubKey :: s.history }
  | (wallet, none) => { s with wallet }

/-- One call; there is no next state if an assertion fails. -/
def step [DecidableEq K] (s : KeyPoolSystem K) (call : KeyPoolCall) : Option (KeyPoolSystem K) :=
  match call.op with
  | .getReservedKey id => s.getReservedKey generated call.fLocked id
  | .keepKey id => some (s.keepKey id)
  | .returnKey id => some (s.returnKey id)
  | .topUpKeyPool nSize =>
    some { s with wallet := s.wallet.topUpKeyPool generated call.fLocked nSize }
  | .newKeyPool nSize =>
    some { s with wallet := s.wallet.newKeyPool generated call.fLocked nSize }
  | .getKeyFromPool fAllowReuse => some (s.getKeyFromPool generated call.fLocked fAllowReuse)

end KeyPoolSystem

end NovaCoin
