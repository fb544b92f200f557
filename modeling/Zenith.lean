import Zenith.Lib.Bytes
import Zenith.Lib.SortedMap
import Zenith.Crdt.VectorClock
import Zenith.Crdt.Codec
import Zenith.Lib.BinarySearch
import Zenith.Lib.Lines
import Zenith.SSTable.Block
import Zenith.SSTable.BlockSearch
import Zenith.SSTable.Bloom
import Zenith.SSTable.Table
import Zenith.SSTable.Lookup
import Zenith.SSTable.Scan
import Zenith.Storage.MemTable
import Zenith.Storage.Wal
import Zenith.Lib.Text
import Zenith.Storage.Manifest
import Zenith.DB.State
import Zenith.DB.Step
import Zenith.DB.History
import Zenith.DB.Recovery
import Zenith.DB.StaleWrite
import Zenith.DB.Preserve
import Zenith.Crdt.SoloClock
import Zenith.DB.ScanMerge
import Zenith.DB.SingleNode
import Zenith.DB.ManifestLog
import Zenith.DB.Reopen
import Zenith.DB.ClockContinuity
import Zenith.Cluster.Node
import Zenith.Cluster.Transport
import Zenith.DB.Stores
import Zenith.Lib.Run
import Zenith.Lib.Outcome
import Zenith.Crdt.LWWRegister
import Zenith.SSTable.RoundTrip
import Zenith.DB.Compaction
import Zenith.DB.Retirement
import Zenith.Lib.Levels
import Zenith.DB.InStep
import Zenith.DB.FileNames
import Zenith.Crdt.Absorb
import Zenith.Crdt.ClockIds
import Zenith.DB.ReadsAgree
import Zenith.DB.Versions
import Zenith.DB.Receive
import Zenith.Cluster.AntiEntropy
import Zenith.DB.Rotation
import Zenith.DB.Clocks
import Zenith.Cluster.Clocks
import Zenith.Cluster.Replication
import Zenith.Cluster.MergeOrder
import Zenith.Cluster.Convergence
import Zenith.Lib.Layers
import Zenith.DB.TableVersions
import Zenith.Crdt.DecodeBounds
import Zenith.Crdt.Laws
import Zenith.DB.LocalCounter
import Zenith.DB.LogFailure
import Zenith.Storage.TornLog
import Zenith.Storage.LineReaders
import Zenith.SSTable.BloomReader
import Zenith.SSTable.BlockBounds
import Zenith.SSTable.UntrustedBlock
import Zenith.SSTable.UntrustedTable
import Zenith.DB.TableAges
import Zenith.DB.NewestVersion
import Zenith.Lib.Tower
import Zenith.Storage.SkipList
import Zenith.Storage.SkipInsert
import Zenith.Storage.SkipReads
import Zenith.Storage.SkipMemTable
import Zenith.Lib.Regions
import Zenith.Storage.Arena
import Zenith.Storage.BlockCache
import Zenith.Storage.FileSystem
import Zenith.Storage.MockEnv
import Zenith.DB.Cascade
import Zenith.DB.Pruning
import Zenith.DB.Linearization
import Zenith.DB.RegisterMap
import Zenith.DB.Crash
import Zenith.Console.Main
import Zenith.Console.Transcript
import Zenith.DB.CrashScan
import Zenith.DB.ConcurrentScan
import Zenith.DB.Marked
import Zenith.Cluster.Provenance
import Zenith.Cluster.Gossip
import Zenith.Storage.ArenaTable
import Zenith.Storage.SkipReaders
import Zenith.Storage.ArenaSpace
import Zenith.DB.Directory
import Zenith.DB.Outages
import Zenith.Storage.TornManifest
import Zenith.DB.Robust
import Zenith.Cluster.Outages
import Zenith.Lib.Within
import Zenith.SSTable.Machine
