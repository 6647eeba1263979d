import NovaCoin.Streams
import NovaCoin.Wallet

/-!
# Relaying transactions

`RelayTransaction` (`net.cpp`), which keeps what it relays for the peers that will ask for it, and
the way from `SendMessages` to the transactions of the wallet that are sent again
(`ResendWalletTransactions` in `main.cpp` and `wallet.cpp`).

`now` is what `GetTime()` returns during a call. The times of `RelayTransaction` are numbers without
bound, as `GetTime() + 15 * 60` is far from the end of `int64_t`. What is told to the peers is left
out.
-/

namespace NovaCoin

/-! ## The memory for relayed transactions -/

structure CInv where
  type : Int32
  hash : Uint256
  deriving DecidableEq

def MSG_TX : Int32 := 1

structure RelayMemory where
  mapRelay : AList fun _ : CInv => CDataStream
  vRelayExpiration : List (Int × CInv)

namespace RelayMemory

def init : RelayMemory := ⟨∅, []⟩

/-- The loop that expires old relay messages. -/
def expire (now : Int) (mapRelay : AList fun _ : CInv => CDataStream) :
    List (Int × CInv) → RelayMemory
  | [] => ⟨mapRelay, []⟩
  | e :: queue =>
    if e.1 < now then expire now (mapRelay.erase e.2) queue else ⟨mapRelay, e :: queue⟩

/-- `mapRelay.insert`, which leaves an entry that is there. -/
def insertNew (mapRelay : AList fun _ : CInv => CDataStream) (inv : CInv) (ss : CDataStream) :
    AList fun _ : CInv => CDataStream :=
  if inv ∈ mapRelay then mapRelay else mapRelay.insert inv ss

end RelayMemory

/-- A call of `RelayTransaction`. -/
structure RelayCall where
  now : Int
  hash : Uint256
  ss : CDataStream

namespace RelayCall

def inv (call : RelayCall) : CInv := ⟨MSG_TX, call.hash⟩

def entry (call : RelayCall) : Int × CInv := (call.now + 15 * 60, call.inv)

end RelayCall

namespace RelayMemory

def relayTransaction (s : RelayMemory) (call : RelayCall) : RelayMemory :=
  let s := expire call.now s.mapRelay s.vRelayExpiration
  ⟨insertNew s.mapRelay call.inv call.ss, s.vRelayExpiration ++ [call.entry]⟩

/-- All calls since the start. -/
def relayAll (calls : List RelayCall) : RelayMemory := calls.foldl relayTransaction init

end RelayMemory

/-! ## Transactions of the wallet that are sent again -/

/-- What `ResendWalletTransactions` reads of a wallet: the transactions by their hashes, each with
its `nTimeReceived`, and the times of the last and the next call. -/
structure ResendWallet where
  mapWallet : List (UInt32 × CWalletTx)
  nNextResend : Int64
  nLastResend : Int64

namespace ResendWallet

/-- `mapSorted.insert`: there is one transaction for each time. -/
def insertSorted (item : UInt32 × CWalletTx) :
    List (UInt32 × CWalletTx) → List (UInt32 × CWalletTx)
  | [] => [item]
  | first :: mapSorted =>
    if item.1 < first.1 then item :: first :: mapSorted
    else if item.1 = first.1 then first :: mapSorted
    else first :: insertSorted item mapSorted

/-- `ResendWalletTransactionsBefore`: the transactions `RelayWalletTransaction` is called for, in
order. -/
def resendWalletTransactionsBefore (mapWallet : List (UInt32 × CWalletTx)) (nTime : Int64) :
    List (UInt32 × CWalletTx) :=
  mapWallet.foldl (fun mapSorted item =>
    if nTime.toInt < item.1.toNat then mapSorted else insertSorted item mapSorted) []

/-- `CWallet::ResendWalletTransactions`: the wallet after it, and the transactions it relays, or
`none` if a time gate stops it. `nPoisson` is what `PoissonNextSend(nNow, 5 * 60)` returns. -/
def resendWalletTransactions (wallet : ResendWallet) (nBestBlockTime nNow nPoisson : Int64) :
    ResendWallet × Option (List (UInt32 × CWalletTx)) :=
  if nNow < wallet.nNextResend then (wallet, none)
  else
    let fFirst := wallet.nNextResend == 0
    let wallet := { wallet with nNextResend := nPoisson }
    if fFirst then (wallet, none)
    -- only if there has been a new block since the last time
    else if nBestBlockTime < wallet.nLastResend then (wallet, none)
    else
      ({ wallet with nLastResend := nNow },
        some (resendWalletTransactionsBefore wallet.mapWallet (nBestBlockTime - 5 * 60)))

/-- `ResendWalletTransactions(fForceResend)` for a wallet: the flag is passed on in the place of a
time. -/
def resendForced (wallet : ResendWallet) (fForceResend : Bool) (nNow nPoisson : Int64) :
    ResendWallet × Option (List (UInt32 × CWalletTx)) :=
  wallet.resendWalletTransactions (if fForceResend then 1 else 0) nNow nPoisson

/-- The call in `SendMessages`, with the default for the flag. -/
def sendMessages (wallet : ResendWallet) (nNow nPoisson : Int64) :
    ResendWallet × Option (List (UInt32 × CWalletTx)) :=
  wallet.resendForced false nNow nPoisson

end ResendWallet

end NovaCoin
