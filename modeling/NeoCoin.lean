import NeoCoin.Theorems.Accounts
import NeoCoin.Theorems.AnyPeer
import NeoCoin.Theorems.Audit
import NeoCoin.Theorems.Balances
import NeoCoin.Theorems.BloomFilter
import NeoCoin.Theorems.CacheBytes
import NeoCoin.Theorems.CacheSharing
import NeoCoin.Theorems.Checkpoints
import NeoCoin.Theorems.Codec
import NeoCoin.Theorems.Coinbase
import NeoCoin.Theorems.Concurrency
import NeoCoin.Theorems.Consensus
import NeoCoin.Theorems.Goroutines
import NeoCoin.Theorems.Leftovers
import NeoCoin.Theorems.LightClient
import NeoCoin.Theorems.MempoolLosses
import NeoCoin.Theorems.Message
import NeoCoin.Theorems.OrphanBound
import NeoCoin.Theorems.Panics
import NeoCoin.Theorems.ParallelSync
import NeoCoin.Theorems.PeerAPI
import NeoCoin.Theorems.PoolEntry
import NeoCoin.Theorems.PoolRuns
import NeoCoin.Theorems.Pruning
import NeoCoin.Theorems.Queries
import NeoCoin.Theorems.Reconstruction
import NeoCoin.Theorems.SecureChannel
import NeoCoin.Theorems.Selection
import NeoCoin.Theorems.Serializer
import NeoCoin.Theorems.StateCommitments
import NeoCoin.Theorems.Sync
import NeoCoin.Theorems.TrieIterator
import NeoCoin.Theorems.TrieRoot
import NeoCoin.Theorems.Votes
import NeoCoin.Theorems.Worker
