import CncContent.Bencode.Canonical
import CncContent.Bencode.Codec
import CncContent.Bencode.RoundTrip
import CncContent.Cache.LruCache
import CncContent.Cache.PieceDataCache
import CncContent.Cache.PieceDataCacheSpec
import CncContent.Cache.Prefetch
import CncContent.Cache.ScanResistance
import CncContent.Cache.UrlPex
import CncContent.Content.Download
import CncContent.Content.Installation
import CncContent.Content.Integrity
import CncContent.Content.Packages
import CncContent.Content.Session
import CncContent.Coordinator.Attempts
import CncContent.Coordinator.Blacklist
import CncContent.Coordinator.Contents
import CncContent.Coordinator.Delivery
import CncContent.Coordinator.Ownership
import CncContent.Coordinator.Resumption
import CncContent.Coordinator.Run
import CncContent.Coordinator.Safety
import CncContent.Coordinator.Scans
import CncContent.Coordinator.Selection
import CncContent.Coordinator.Steps
import CncContent.Coordinator.Worker
import CncContent.Dht.Buckets
import CncContent.Dht.Distance
import CncContent.Dht.Network
import CncContent.Dht.Node
import CncContent.Downloads.Extraction
import CncContent.Downloads.Health
import CncContent.Downloads.Lifecycle
import CncContent.Downloads.MirrorNames
import CncContent.Downloads.Mirrors
import CncContent.Downloads.MirrorsSpec
import CncContent.Downloads.Progress
import CncContent.Downloads.Segmented
import CncContent.Downloads.SegmentedSpec
import CncContent.Endgame.History
import CncContent.Endgame.Mode
import CncContent.Group.CatalogSign
import CncContent.Group.Credential
import CncContent.Group.CredentialBytes
import CncContent.Group.Privileges
import CncContent.Group.Roster
import CncContent.Install.Executor
import CncContent.Install.Movies
import CncContent.Install.Restart
import CncContent.Install.Script
import CncContent.Iscab.Archive
import CncContent.Iscab.ArchiveSpec
import CncContent.Iscab.Extract
import CncContent.Lib.Arrivals
import CncContent.Lib.Attempts
import CncContent.Lib.Averages
import CncContent.Lib.BinarySearch
import CncContent.Lib.BitBlocks
import CncContent.Lib.BitRows
import CncContent.Lib.Bounded
import CncContent.Lib.Bytes
import CncContent.Lib.Checks
import CncContent.Lib.Chunks
import CncContent.Lib.CoverCount
import CncContent.Lib.Dealing
import CncContent.Lib.Decimal
import CncContent.Lib.FileScripts
import CncContent.Lib.FileTree
import CncContent.Lib.FirstMatch
import CncContent.Lib.Greatest
import CncContent.Lib.HashTree
import CncContent.Lib.HexDigits
import CncContent.Lib.Hmac
import CncContent.Lib.Keyed
import CncContent.Lib.Loop
import CncContent.Lib.Maps
import CncContent.Lib.Milestones
import CncContent.Lib.Outlasting
import CncContent.Lib.Overlay
import CncContent.Lib.Owners
import CncContent.Lib.Past
import CncContent.Lib.PrefixFree
import CncContent.Lib.Ranking
import CncContent.Lib.Recency
import CncContent.Lib.Runs
import CncContent.Lib.Sextets
import CncContent.Lib.Shares
import CncContent.Lib.Slots
import CncContent.Lib.Spans
import CncContent.Lib.Substrings
import CncContent.Lib.Tallies
import CncContent.Lib.TokenBucket
import CncContent.Limits.Budget
import CncContent.Limits.Delays
import CncContent.Limits.Departures
import CncContent.Limits.RateLimiter
import CncContent.Limits.Throttle
import CncContent.Limits.Uploads
import CncContent.Manifest.CanonicalBytes
import CncContent.Manifest.Catalog
import CncContent.Manifest.Diff
import CncContent.Manifest.Group
import CncContent.Merkle.Build
import CncContent.Merkle.Leaves
import CncContent.Merkle.Soundness
import CncContent.Metadata.Exchange
import CncContent.Metadata.Recovery
import CncContent.Metadata.Verified
import CncContent.Peers.Avoidance
import CncContent.Peers.Bans
import CncContent.Peers.Bitfield
import CncContent.Peers.Blame
import CncContent.Peers.Choking
import CncContent.Peers.Connection
import CncContent.Peers.Exchange
import CncContent.Peers.Lifetimes
import CncContent.Peers.LocalDiscovery
import CncContent.Peers.LocalNetwork
import CncContent.Peers.MirrorHealth
import CncContent.Peers.PeerIds
import CncContent.Peers.Pool
import CncContent.Peers.Relay
import CncContent.Peers.Scores
import CncContent.Peers.Tracker
import CncContent.Session.Activation
import CncContent.Session.Manager
import CncContent.Session.Order
import CncContent.Storage.Backend
import CncContent.Storage.Coalescing
import CncContent.Storage.CoalescingSpec
import CncContent.Storage.File
import CncContent.Storage.Scrub
import CncContent.Storage.Tiering
import CncContent.Storage.TieringConcurrency
import CncContent.Storage.TieringSpec
import CncContent.Streaming.Bandwidth
import CncContent.Streaming.ByteRangeSpec
import CncContent.Streaming.ByteRanges
import CncContent.Streaming.FilePieces
import CncContent.Streaming.Gateway
import CncContent.Streaming.GatewaySpec
import CncContent.Streaming.Playback
import CncContent.Streaming.RangeRequests
import CncContent.Streaming.Reader
import CncContent.Streaming.ReaderSpec
import CncContent.Torrent.Base64
import CncContent.Torrent.Create
import CncContent.Torrent.CreateAgree
import CncContent.Torrent.Info
import CncContent.Torrent.Metainfo
import CncContent.Torrent.Pem
import CncContent.Torrent.PieceMap
import CncContent.Torrent.Quarantine
import CncContent.Torrent.Resume
import CncContent.Torrent.SavedPeers
import CncContent.Torrent.Selection
import CncContent.Torrent.SuperSeeding
import CncContent.Torrent.Trackers
import CncContent.Vdf.Parser
import CncContent.Vdf.Provenance
import CncContent.Vdf.RoundTrip
import CncContent.Verify.Bitfield
import CncContent.Verify.Generation
import CncContent.Verify.Incremental
import CncContent.Wire.FastExtension
import CncContent.Wire.Framing
import CncContent.Wire.Message
import CncContent.Wire.Obfuscation
import CncContent.WorkStealing.Holders
import CncContent.WorkStealing.Interleaving
import CncContent.WorkStealing.Scheduler
import CncContent.WorkStealing.Sequential
import CncContent.Workshop.Acceptance
import CncContent.Workshop.Announcement
import CncContent.Workshop.Blob
import CncContent.Workshop.Discovery
import CncContent.Workshop.LockCheck
import CncContent.Workshop.LockedVersion
import CncContent.Workshop.Package
import CncContent.Workshop.PackageRoundTrip
import CncContent.Workshop.Registry
import CncContent.Workshop.Rejections
import CncContent.Workshop.Resolution
import CncContent.Workshop.Resolver
import CncContent.Workshop.Resource
import CncContent.Workshop.Validator
