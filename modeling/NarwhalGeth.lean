import NarwhalGeth.Lib.Assoc
import NarwhalGeth.Lib.CausalOrder
import NarwhalGeth.Lib.DepthFirst
import NarwhalGeth.Lib.Descent
import NarwhalGeth.Lib.EachAfter
import NarwhalGeth.Lib.Fallible
import NarwhalGeth.Lib.FixedWidth
import NarwhalGeth.Lib.Gapless
import NarwhalGeth.Lib.Heap
import NarwhalGeth.Lib.Machine
import NarwhalGeth.Lib.Merge
import NarwhalGeth.Lib.Protobuf
import NarwhalGeth.Lib.Quorum
import NarwhalGeth.Lib.Rpc
import NarwhalGeth.Lib.TableIndex
import NarwhalGeth.Narwhal.Types
import NarwhalGeth.Narwhal.Committee
import NarwhalGeth.Narwhal.ConsensusState
import NarwhalGeth.Narwhal.Utils
import NarwhalGeth.Narwhal.Bullshark
import NarwhalGeth.Narwhal.Ledger
import NarwhalGeth.Narwhal.Refinement
import NarwhalGeth.Narwhal.Leaders
import NarwhalGeth.Narwhal.Commit
import NarwhalGeth.Narwhal.LeaderChain
import NarwhalGeth.Narwhal.Agreement
import NarwhalGeth.Narwhal.Progress
import NarwhalGeth.Narwhal.Integrity
import NarwhalGeth.Narwhal.CertificateStore
import NarwhalGeth.Narwhal.Recovery
import NarwhalGeth.Narwhal.Replay
import NarwhalGeth.Narwhal.FetchCertificates
import NarwhalGeth.Narwhal.StoreIndexes
import NarwhalGeth.Narwhal.Synchronizer
import NarwhalGeth.Narwhal.Release
import NarwhalGeth.Narwhal.Acceptance
import NarwhalGeth.Narwhal.Arrival
import NarwhalGeth.Narwhal.Panics
import NarwhalGeth.Narwhal.Bookkeeping
import NarwhalGeth.Narwhal.AcceptedOnce
import NarwhalGeth.Lib.Erc721
import NarwhalGeth.Dapp.Contracts
import NarwhalGeth.Dapp.Settlement
import NarwhalGeth.Dapp.Consent
import NarwhalGeth.Lib.UndoLog
import NarwhalGeth.EvmState.StateDB
import NarwhalGeth.EvmState.View
import NarwhalGeth.EvmState.Journal
import NarwhalGeth.EvmState.Revert
import NarwhalGeth.Narwhal.GarbageCollection
import NarwhalGeth.Narwhal.Messages
import NarwhalGeth.Narwhal.Digest
import NarwhalGeth.Narwhal.Votes
import NarwhalGeth.Narwhal.Certification
import NarwhalGeth.Narwhal.CertifiedDag
import NarwhalGeth.Narwhal.Proposer
import NarwhalGeth.Narwhal.OwnBatches
import NarwhalGeth.Geth.Adapter
import NarwhalGeth.Geth.Extra
import NarwhalGeth.Geth.Notify
import NarwhalGeth.Geth.Worker
import NarwhalGeth.Geth.ResultLoop
import NarwhalGeth.Clique.Snapshot
import NarwhalGeth.Clique.Engine
import NarwhalGeth.Clique.Retrieval
import NarwhalGeth.Clique.Recents
import NarwhalGeth.Clique.Signers
import NarwhalGeth.Clique.Production
import NarwhalGeth.Clique.Chain
import NarwhalGeth.Miner.Ordering
import NarwhalGeth.Miner.Commit
import NarwhalGeth.Trie.Trie
import NarwhalGeth.Trie.Canonical
import NarwhalGeth.TxPool.List
import NarwhalGeth.TxPool.Priced
import NarwhalGeth.TxPool.Eviction
import NarwhalGeth.TxPool.Pool
import NarwhalGeth.TxPool.Partition
import NarwhalGeth.TxPool.Reorg
import NarwhalGeth.TxPool.Moves
import NarwhalGeth.TxPool.Truncation
import NarwhalGeth.TxPool.Admission
import NarwhalGeth.TxPool.History
import NarwhalGeth.TxPool.Rejection
import NarwhalGeth.TxPool.Runs
import NarwhalGeth.TxPool.GapFree
import NarwhalGeth.TxPool.LeftBehind
import NarwhalGeth.Gateway.Relay
import NarwhalGeth.Gateway.Delivery
import NarwhalGeth.Gateway.Progress
import NarwhalGeth.Gateway.Outage
import NarwhalGeth.Gateway.Wire
import NarwhalGeth.Narwhal.Fetch
import NarwhalGeth.Narwhal.BatchMaker
import NarwhalGeth.Narwhal.Thresholds
import NarwhalGeth.Clique.GasLimit
import NarwhalGeth.Gateway.ExecutorClient
import NarwhalGeth.Trie.Encoding
import NarwhalGeth.Narwhal.Linkage
import NarwhalGeth.Lib.Ancestry
import NarwhalGeth.Lib.BreadthFirst
import NarwhalGeth.NodeDag.Node
import NarwhalGeth.NodeDag.Compression
import NarwhalGeth.NodeDag.Calls
import NarwhalGeth.Geth.Rlp
import NarwhalGeth.Trie.Hasher
import NarwhalGeth.Trie.StackTrie
import NarwhalGeth.Trie.DeriveSha
