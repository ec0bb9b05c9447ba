import Badem.Ledger.Balances
import Badem.Ledger.Operations
import Badem.Ledger.Checksum
import Badem.Upgrades.Migration
import Badem.Consensus.Tallies
import Badem.Consensus.VoteSequences
import Badem.Consensus.VoteCodes
import Badem.Processor.ForgedCopies
import Badem.Processor.Replacement
import Badem.Ledger.History
import Badem.Bootstrap.ChainServer
import Badem.Bootstrap.BlockRange
import Badem.Bootstrap.Pushes
import Badem.Bootstrap.PullRetries
import Badem.Bootstrap.RequestQueue
import Badem.Bootstrap.Convergence
import Badem.Wallet.Confidentiality
import Badem.Wallet.SendRetries
import Badem.Wallet.Watching
import Badem.Wallet.Imports
import Badem.Wallet.SeedAccounts
import Badem.Wallet.AccountLookup
import Badem.Text.BlockJson
import Badem.Text.BalanceText
import Badem.Processor.UncheckedViews
import Badem.Consensus.OnlineStake
import Badem.Network.StatCounts
import Badem.Network.PeerSampling
import Badem.Network.EndpointText
import Badem.Work.DistributedAnswers
