import Rurge.Config.Rule
import Rurge.Lib.Fields
import Rurge.Rules.DomainIndex
import Rurge.Rules.Verdict
import Rurge.Rules.IpIndex
import Rurge.Rules.Matcher
import Rurge.Rules.Set
import Rurge.Rules.Meaning
import Rurge.Rules.Engine
import Rurge.Rules.Judging
import Rurge.Rules.EngineRuns
import Rurge.Rules.SetBuilt
import Rurge.Rules.SetLines
import Rurge.Rules.Careful
import Rurge.Rules.PreMatch
import Rurge.FakeIp.File
import Rurge.Lib.Recency
import Rurge.Lib.Runs
import Rurge.FakeIp.Pool
import Rurge.Lib.Inverse
import Rurge.FakeIp.Standing
import Rurge.FakeIp.Safety
import Rurge.FakeIp.Crash
import Rurge.FakeIp.Reread
import Rurge.Lib.Segments
import Rurge.Quic.Bytes
import Rurge.Quic.Crypto
import Rurge.Quic.Reassembly
import Rurge.Quic.Initial
import Rurge.Quic.Packets
import Rurge.Lib.Programs
import Rurge.Lib.Undo
import Rurge.SystemProxy.Settings
import Rurge.SystemProxy.GivesBack
import Rurge.SystemProxy.Linux
import Rurge.SystemProxy.Macos
import Rurge.SystemProxy.Backends
import Rurge.Enhanced.Routes
import Rurge.Enhanced.System
import Rurge.Enhanced.Manager
import Rurge.Enhanced.Installing
import Rurge.Enhanced.Asking
import Rurge.Enhanced.Covered
import Rurge.Enhanced.Saving
import Rurge.Enhanced.Backup
import Rurge.Enhanced.Outlives
import Rurge.Lib.Chunks
import Rurge.Tun.Budget
import Rurge.Tun.Fragment
import Rurge.Dns.Wire
import Rurge.Dns.Ttl
import Rurge.Dns.Names
import Rurge.Dns.Answer
import Rurge.H3.Huffman
import Rurge.Config.Host
import Rurge.Lib.Parts
import Rurge.Tuic.Addr
import Rurge.Tuic.Reassembly
import Rurge.Hysteria2.Udp
import Rurge.Hysteria2.Reassembly
import Rurge.Lib.Fifo
import Rurge.Shadowsocks.Udp
import Rurge.Tun.Limit
import Rurge.Tun.Sack
import Rurge.AnyTls.Frame
import Rurge.AnyTls.Padding
import Rurge.Capture.Entry
import Rurge.Capture.Store
import Rurge.Capture.Accounts
import Rurge.Capture.Slot
import Rurge.Capture.SlotRuns
import Rurge.Tun.Targets
import Rurge.Tun.TargetRuns
import Rurge.Http.ClientHello
import Rurge.Http.Sniff
import Rurge.Http.SniffRuns
import Rurge.Http.SniffCuts
import Rurge.Config.Profile
import Rurge.Config.ManagedLine
import Rurge.Config.Include
import Rurge.Config.IncludeRuns
import Rurge.Config.IncludeBounds
import Rurge.Config.IncludeConfined
import Rurge.Config.IncludeMeaning
import Rurge.Policy.TestBook
import Rurge.Policy.TestBookRuns
import Rurge.Dns.Coalesce
import Rurge.Dns.CoalesceRuns
import Rurge.Dns.SingleFlight
import Rurge.Policy.AutoGroups
import Rurge.Policy.AutoRounds
import Rurge.Dns.Fanout
import Rurge.Dns.FanoutRuns
import Rurge.Dns.Cache
import Rurge.Dns.Resolver
import Rurge.Dns.ResolverTimes
import Rurge.Dns.ResolverSound
import Rurge.Dns.ResolverRuns
import Rurge.Lib.Digraph
import Rurge.Policy.Cycles
import Rurge.Policy.OnCycles
import Rurge.Policy.ShortestCycle
import Rurge.Policy.GroupCycles
import Rurge.Policy.SiteRuns
import Rurge.Net.Resource
import Rurge.Net.ResourceAnswers
import Rurge.Net.ResourceTimes
import Rurge.Net.Race
import Rurge.Net.RaceRuns
import Rurge.Dns.Forward
import Rurge.Dns.ForwardRuns
import Rurge.Hysteria2.Gecko
import Rurge.Hysteria2.GeckoRuns
import Rurge.Hysteria2.Obfs
import Rurge.Hysteria2.ObfsRuns
import Rurge.Wireguard.Device
import Rurge.Wireguard.DeviceRuns
import Rurge.Engine.ProfileSources
import Rurge.Engine.ProfileSourcesRuns
import Rurge.Config.Managed
import Rurge.Config.ManagedChoice
import Rurge.Config.Requirement
import Rurge.Config.RequirementGrammar
import Rurge.Config.RequirementText
import Rurge.Config.RequirementLines
import Rurge.Proto.StreamUdp
import Rurge.Proto.StreamUdpRuns
import Rurge.Dns.QuicSession
import Rurge.Dns.QuicSessionRuns
import Rurge.Proto.Obfs
import Rurge.Proto.ObfsWrites
import Rurge.Proto.ObfsReads
import Rurge.Lib.Blocks
import Rurge.Route.RouteSet
import Rurge.Route.RouteSetCovers
import Rurge.Route.RouteSetSpec
import Rurge.Lib.Latch
import Rurge.Engine.Observe
import Rurge.Engine.ObserveRuns
import Rurge.Engine.ObserveCounts
import Rurge.Engine.ObserveSpec
import Rurge.Proto.TargetUdp
import Rurge.Proto.TargetUdpRuns
import Rurge.Proto.TargetUdpTable
import Rurge.Proto.TargetUdpWrites
import Rurge.Proto.TargetUdpSpec
import Rurge.Rules.Lazy
import Rurge.Rules.SubHit
import Rurge.Lib.Brackets
import Rurge.Config.ValueCuts
import Rurge.Engine.StateStore
import Rurge.Engine.StateStoreRuns
import Rurge.Engine.StateStoreSpec
import Rurge.Tun.Classify
import Rurge.Tun.ClassifySpec
import Rurge.Tun.Rewrite
import Rurge.Tun.RewriteSpec
import Rurge.Tun.AnswerSpec
import Rurge.Config.GlobSpec
import Rurge.Lib.Bisect
import Rurge.Rules.DomainArrays
import Rurge.Quic.PortSet
import Rurge.Lib.Transducer
import Rurge.Shadowsocks.Stream
import Rurge.Shadowsocks.StreamSpec
import Rurge.Lib.Readers
import Rurge.H3.Qpack
import Rurge.H3.QpackSpec
import Rurge.Engine.Relay
import Rurge.Proto.ShadowTls
