import Ed2kServer.Basic
import Ed2kServer.Lib.Transition
import Ed2kServer.Lib.Ascending
import Ed2kServer.Keyword.PostingCodec
import Ed2kServer.Keyword.PostingSpec
import Ed2kServer.Lib.SortedMap
import Ed2kServer.Keyword.ColdShard
import Ed2kServer.Keyword.Cold
import Ed2kServer.Text.Chars
import Ed2kServer.Keyword.Tokenizer
import Ed2kServer.Keyword.MergeTiers
import Ed2kServer.Keyword.Index
import Ed2kServer.Keyword.Lookup
import Ed2kServer.Keyword.Compact
import Ed2kServer.Keyword.Abstract
import Ed2kServer.Keyword.TokenStep
import Ed2kServer.Keyword.CommitStep
import Ed2kServer.Keyword.Refinement
import Ed2kServer.Keyword.ArenaLimit
import Ed2kServer.Keyword.FileStep
import Ed2kServer.Lib.Intrusive
import Ed2kServer.Slab.Record
import Ed2kServer.Slab.Shard
import Ed2kServer.Slab.Chains
import Ed2kServer.Slab.Invariant
import Ed2kServer.Slab.ShardSpec
import Ed2kServer.Slab.Store
import Ed2kServer.Slab.StoreSpec
import Ed2kServer.Slab.HashIndex
import Ed2kServer.Slab.IdSpace
import Ed2kServer.Slab.FreeQueue
import Ed2kServer.Slab.Quarantine
import Ed2kServer.Server.LowId
import Ed2kServer.Slab.MediaFields
import Ed2kServer.Search.Tree
import Ed2kServer.Search.Evaluate
import Ed2kServer.Search.Groups
import Ed2kServer.Search.Completeness
import Ed2kServer.Search.Unknown
import Ed2kServer.Search.ContainsToken
import Ed2kServer.Lib.TopN
import Ed2kServer.Search.Words
import Ed2kServer.Search.HashRef
import Ed2kServer.Search.Handle
import Ed2kServer.Search.Scan
import Ed2kServer.Sources.SharedReply
import Ed2kServer.Lib.Incremental
import Ed2kServer.Proto.FrameCodec
import Ed2kServer.Proto.EncryptedStream
import Ed2kServer.Proto.PackedCipher
import Ed2kServer.Proto.ServerDatagram
import Ed2kServer.Slab.Codecs
import Ed2kServer.Search.Plain
import Ed2kServer.Search.UdpSearch
import Ed2kServer.Search.Ranking
import Ed2kServer.Publish.SoftLimit
import Ed2kServer.Lib.ByteReader
import Ed2kServer.Text.Utf8
import Ed2kServer.Proto.Tags
import Ed2kServer.Publish.ParseOffer
import Ed2kServer.Publish.Departure
import Ed2kServer.Publish.AttemptLimit
import Ed2kServer.Search.ResultPage
import Ed2kServer.Lib.SlotReads
import Ed2kServer.Filter.Check
import Ed2kServer.Filter.VerdictCache
import Ed2kServer.Text.Lines
import Ed2kServer.Filter.Loaders
import Ed2kServer.Updates.Validate
import Ed2kServer.Updates.Merge
import Ed2kServer.Updates.Install
import Ed2kServer.Lib.History
import Ed2kServer.Server.Login
import Ed2kServer.Server.ClientSlots
import Ed2kServer.Server.Takeover
import Ed2kServer.Admission.Bucket
import Ed2kServer.Server.LugdunumNatt
import Ed2kServer.Server.ForeignLimits
import Ed2kServer.Lib.Assoc
import Ed2kServer.Server.ServerList
import Ed2kServer.Server.ServerListInvariant
import Ed2kServer.Server.Registration
import Ed2kServer.Admin.Auth
import Ed2kServer.Admin.Lockout
import Ed2kServer.Proto.DhHandshake
import Ed2kServer.Server.ObfuscatedConn
import Ed2kServer.Server.NattProof
import Ed2kServer.Server.NattProofSafety
import Ed2kServer.Keyword.ColdRebuild
import Ed2kServer.Keyword.Grouped
import Ed2kServer.Proto.WireTags
import Ed2kServer.Publish.OfferRecords
import Ed2kServer.Publish.RefusedOffer
import Ed2kServer.Lib.SplitMap
import Ed2kServer.Keyword.Folding
import Ed2kServer.Search.PlainWords
import Ed2kServer.Search.DroppedWords
import Ed2kServer.Search.RewriteGoal
import Ed2kServer.Lib.GuardCount
import Ed2kServer.Admission.Guards
import Ed2kServer.Admission.GuardCounts
import Ed2kServer.Server.Ipv6Probe
import Ed2kServer.Server.Ipv6ProbeSafety
import Ed2kServer.Server.HotReload
import Ed2kServer.Server.HotReloadConverges
import Ed2kServer.Filter.IpFilter
import Ed2kServer.Server.BotIpFilter
import Ed2kServer.Server.BotIpFilterStays
import Ed2kServer.Server.QueryHashes
import Ed2kServer.Server.OptionTags
import Ed2kServer.Search.TreeParser
import Ed2kServer.Search.TreeGrammar
import Ed2kServer.Text.ByteSlices
import Ed2kServer.Search.HashSlices
import Ed2kServer.Search.HashForms
import Ed2kServer.Lib.Backlog
import Ed2kServer.Publish.OfferPacing
import Ed2kServer.Text.Trim
import Ed2kServer.Slab.MediaSlots
import Ed2kServer.Slab.CodecIndex
import Ed2kServer.Publish.MediaHistory
import Ed2kServer.Filter.Jargon
import Ed2kServer.Filter.JargonScan
import Ed2kServer.Filter.JargonExact
import Ed2kServer.Lib.Bitset
import Ed2kServer.Filter.Prefilter
import Ed2kServer.Filter.PrefilterExact
import Ed2kServer.Filter.Nfc
import Ed2kServer.Filter.Damaged
import Ed2kServer.Server.TakeoverProbe
import Ed2kServer.Server.TakeoverProbePace
import Ed2kServer.Filter.HitReport
import Ed2kServer.Filter.GeoIp
import Ed2kServer.Updates.MergeSound
import Ed2kServer.Server.ServerMet
import Ed2kServer.Server.KeepaliveFrame
import Ed2kServer.Server.Holepunch
import Ed2kServer.Filter.Layer2File
import Ed2kServer.Filter.TermExempt
import Ed2kServer.Publish.NameDb
import Ed2kServer.Publish.NameBatches
import Ed2kServer.Publish.NameAdd
import Ed2kServer.Publish.NameHistory
import Ed2kServer.Publish.NameRuns
import Ed2kServer.Filter.AgePattern
import Ed2kServer.Filter.AgeTokens
import Ed2kServer.Filter.AgeScan
import Ed2kServer.Filter.AgeGuard
import Ed2kServer.Search.ResultStep
import Ed2kServer.Publish.StoredNames
import Ed2kServer.Search.ResultRuns
import Ed2kServer.Slab.LengthText
import Ed2kServer.Publish.SizeOffers
import Ed2kServer.Text.IpAddress
import Ed2kServer.Admin.ConfigCheck
import Ed2kServer.Admin.HostCheck
import Ed2kServer.Admin.SaveSettings
import Ed2kServer.Server.IdentityProbe
import Ed2kServer.Server.HighId
import Ed2kServer.Filter.MaxMindFile
import Ed2kServer.Admission.UdpBudget
import Ed2kServer.Search.Paging
import Ed2kServer.Lib.Failing
import Ed2kServer.Updates.Fetch
import Ed2kServer.Updates.Installs
import Ed2kServer.Updates.Backups
import Ed2kServer.Updates.GeoDatabase
