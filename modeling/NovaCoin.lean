import NovaCoin.Properties.AddrManSize
import NovaCoin.Properties.AddressGroups
import NovaCoin.Properties.Bignum
import NovaCoin.Properties.CheckQueue
import NovaCoin.Properties.CreateTransaction
import NovaCoin.Properties.FinalAlert
import NovaCoin.Properties.FindAndDelete
import NovaCoin.Properties.KernelWorker
import NovaCoin.Properties.KeyPool
import NovaCoin.Properties.LockTime
import NovaCoin.Properties.MerkleBranch
import NovaCoin.Properties.MessageFraming
import NovaCoin.Properties.MoneySupply
import NovaCoin.Properties.OrphanWallet
import NovaCoin.Properties.Relay
import NovaCoin.Properties.Restart
import NovaCoin.Properties.Rewards
import NovaCoin.Properties.SignatureHash
import NovaCoin.Properties.SpendablePool
import NovaCoin.Properties.SyncCheckpoint
import NovaCoin.Properties.TargetFilter
import NovaCoin.Properties.Template
import NovaCoin.Properties.TimeData
import NovaCoin.Properties.TxDb
import NovaCoin.Properties.Uint256
import NovaCoin.Properties.Util
import NovaCoin.Properties.WalletRecords
import NovaCoin.Properties.WalletSpent
