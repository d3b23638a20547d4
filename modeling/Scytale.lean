import Scytale.Lib.Table
import Scytale.Lib.Radix
import Scytale.Lib.Bytes
import Scytale.Lib.Codec
import Scytale.Lib.Ancestry
import Scytale.Lib.LongDivision
import Scytale.Lib.Chunks
import Scytale.Primitives
import Scytale.Blake3
import Scytale.Hex
import Scytale.Lib.Utf8
import Scytale.HashText
import Scytale.Script.Stack
import Scytale.Script.Engine
import Scytale.Script.HeightLocks
import Scytale.Script.Rules
import Scytale.Script.Bounds
import Scytale.Script.Builder
import Scytale.Script.P2pkh
import Scytale.Script.Conditionals
import Scytale.Core.Transaction
import Scytale.Core.TxIdentity
import Scytale.Core.Sighash
import Scytale.Core.Block
import Scytale.Core.Utxo
import Scytale.Core.Outputs
import Scytale.Core.Supply
import Scytale.Core.Applies
import Scytale.Core.Transition
import Scytale.Core.Genesis
import Scytale.Core.Codec
import Scytale.Core.Address
import Scytale.Core.AddressText
import Scytale.Core.Authorization
import Scytale.Core.SignaturePreimage
import Scytale.Core.VmAdapter
import Scytale.Core.BodyHash
import Scytale.Consensus.Target
import Scytale.Consensus.Work
import Scytale.Consensus.Compact
import Scytale.Consensus.Difficulty
import Scytale.Consensus.Subsidy
import Scytale.Consensus.Chain
import Scytale.Consensus.ChainInv
import Scytale.Consensus.Replay
import Scytale.Consensus.ClaimedHeight
import Scytale.Consensus.Descent
import Scytale.Consensus.ForkChoice
import Scytale.Consensus.SupplyCap
import Scytale.Consensus.Convergence
import Scytale.Consensus.NoReplay
import Scytale.Consensus.Naming
import Scytale.Consensus.Retarget
import Scytale.Consensus.PathLaws
import Scytale.Consensus.Timestamps
import Scytale.Consensus.TipLeaf
import Scytale.Consensus.Rebuild
import Scytale.Consensus.Malleation
import Scytale.Lib.Undo
import Scytale.Lib.Worklist
import Scytale.Lib.Growth
import Scytale.Lib.Links
import Scytale.Lib.Contents
import Scytale.Lib.Merkle
import Scytale.Core.UtxoRoot
import Scytale.Core.MerkleProof
import Scytale.Storage.Engine
import Scytale.Storage.RowCodec
import Scytale.Storage.Delta
import Scytale.Storage.Commit
import Scytale.Storage.Records
import Scytale.Storage.Stepwise
import Scytale.Storage.Unwind
import Scytale.Storage.Snapshot
import Scytale.Mempool.Pool
import Scytale.Mempool.Admission
import Scytale.Mempool.Coherence
import Scytale.Mempool.Links
import Scytale.Mempool.Eviction
import Scytale.Mempool.Dependencies
import Scytale.Mempool.Cascade
import Scytale.Mempool.Packages
import Scytale.Mempool.Closure
import Scytale.Mempool.Fees
import Scytale.Mempool.Pending
import Scytale.Mempool.Selection
import Scytale.Node.Submit
import Scytale.Node.VerifierHeight
import Scytale.Node.Validators
import Scytale.Node.Offered
import Scytale.Node.Spendable
import Scytale.Node.Staging
import Scytale.Node.Snapshot
import Scytale.Node.SnapshotChunks
import Scytale.Mining.Template
import Scytale.Mining.Collected
import Scytale.Mining.PowSearch
import Scytale.Node.Run
import Scytale.Node.NamedRun
import Scytale.Node.Atomicity
import Scytale.Node.Follow
import Scytale.Node.Agreement
import Scytale.Node.Index
import Scytale.Node.Recovery
import Scytale.Node.ArrivalOrder
import Scytale.Node.MinerTarget
import Scytale.Node.Acceptance
import Scytale.Contracts.Scy20
import Scytale.Contracts.Vault
import Scytale.Node.Queries
import Scytale.Node.Locator
import Scytale.Node.Passbook
import Scytale.Node.PendingBalance
import Scytale.Node.Journal
import Scytale.Node.Statement
import Scytale.Stratum.Job
import Scytale.Stratum.Service
import Scytale.Indexer.Store
import Scytale.Indexer.Mirror
import Scytale.Node.IndexerFeed
import Scytale.Stratum.Credits
import Scytale.Stratum.Root
import Scytale.Node.ReorgReturn
import Scytale.Stratum.Candidates
import Scytale.Stratum.Canonical
import Scytale.Wallet.Transfer
import Scytale.Account.AliasStore
import Scytale.Node.AliasGateway
import Scytale.Node.Provenance
