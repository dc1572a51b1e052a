import XChain.Sentinel.Quorum
import XChain.Sentinel.Pipeline
import XChain.Sentinel.Workers
import XChain.Dkg.History
import XChain.Dkg.Dealing
import XChain.Core.Rejection
import XChain.Core.PriceHeap
import XChain.Core.LookupIndex
import XChain.Core.StateTransition
import XChain.Consensus.Uncles
import XChain.Consensus.VerifyHeaders
import XChain.Consensus.Dataset
import XChain.Core.ChainIndexer
import XChain.Mc.Filter
import XChain.Mc.FilterSystem
import XChain.Event.Delivery
import XChain.Rpc.Reconnect
import XChain.Rpc.Responses
import XChain.Mc.FetcherQueue
import XChain.Mc.FetcherCounts
import XChain.Abi.RoundTrip
import XChain.Mc.Skeleton
import XChain.Mc.DownloadOrder
import XChain.Sentinel.ScanRanges
import XChain.Sentinel.MintBatch
import XChain.Consensus.CliqueVotes
import XChain.P2p.Protocols
import XChain.P2p.Frame
import XChain.P2p.Dial
import XChain.P2p.TopicCalls
import XChain.P2p.Replacements
import XChain.P2p.ReplyLoop
import XChain.P2p.Rest
import XChain.Mc.StateSync
import XChain.Core.MatcherSession
import XChain.Abi.Transact
import XChain.Mc.KnownSets
import XChain.Mcapi.EstimateGas
import XChain.Core.ValidScan
import XChain.Core.Reinjection
import XChain.Accounts.Wallets
import XChain.Compression.Rle
import XChain.Consensus.Pos
