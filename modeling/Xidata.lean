import Xidata.Eosiolib.MultiIndexRefinement
import Xidata.Eosiolib.SignedInt
import Xidata.Eosiolib.FixedDivide
import Xidata.Eosiolib.FixedKey
import Xidata.Eosiolib.Time
import Xidata.Eosiolib.Amounts
import Xidata.Appcode.GameRecords
import Xidata.Msig.InFlight
import Xidata.System.PendingRefunds
import Xidata.System.StakeViews
import Xidata.System.RamMarket
import Xidata.System.ProxyTermination
import Xidata.System.VoteAccounting
import Xidata.System.Activation
import Xidata.System.NewAccount
import Xidata.System.Election
import Xidata.System.PayBacking
import Xidata.System.RewardArithmetic
import Xidata.Redenv.Envelope
import Xidata.NodeSvr.Bodies
import Xidata.NodeSvr.Isolation
import Xidata.Producer.Watermarks
import Xidata.Producer.Answers
import Xidata.Producer.Schedule
import Xidata.History.Authorities
import Xidata.History.ActionPages
import Xidata.ChainPlugin.IndexPositions
import Xidata.ChainPlugin.PushTransactions
import Xidata.ChainPlugin.ReversibleRecovery
import Xidata.ChainPlugin.ReversibleExport
import Xidata.Bnet.HelloExtensions
import Xidata.Bnet.KnownTransactions
import Xidata.Bnet.Linkable
import Xidata.Bnet.OneWrite
import Xidata.Bnet.Redundancy
import Xidata.Bnet.Rest
import Xidata.Net.Authentication
import Xidata.Net.Duplicates
import Xidata.Net.Framing
import Xidata.Net.InFlight
import Xidata.Net.Marking
import Xidata.Net.Origins
import Xidata.Net.PeerBlocks
import Xidata.Net.SyncServing
import Xidata.Net.Writes
import Xidata.Wallet.Ledger
import Xidata.Dice.Rules
import Xidata.Dice.Contract
import Xidata.Allocator.Oversized
import Xidata.Identity.Claims
import Xidata.Identity.Owners
import Xidata.Mongo.Shutdown
import Xidata.TicTacToe.Contract
import Xidata.Launcher.LocalNetwork
import Xidata.Net.TransactionSpreading
import Xidata.Net.Branches
import Xidata.Net.Clients
import Xidata.ChainPlugin.Producers
import Xidata.Login.SingleUse
import Xidata.Producer.Blacklist
import Xidata.Producer.LiveTimer
import Xidata.Proxy.Payment
