import CeforeEmu.Proof.LinkFaults
import CeforeEmu.Proof.Subscribers
import CeforeEmu.Proof.BridgeRestore
import CeforeEmu.Proof.BridgeTransactions
import CeforeEmu.Proof.Schedule
import CeforeEmu.Proof.Forwarding
import CeforeEmu.Proof.RandomMesh
import CeforeEmu.Proof.Flapping
import CeforeEmu.Proof.Outcomes
import CeforeEmu.Proof.FleetLogs
import CeforeEmu.Proof.Precedence
import CeforeEmu.Proof.ExplicitLinks
import CeforeEmu.Proof.Validation
import CeforeEmu.Proof.FiredEvents
import CeforeEmu.Proof.Publications
import CeforeEmu.Proof.MeshOptions
import CeforeEmu.Proof.Fingerprint
import CeforeEmu.Proof.KShortest
import CeforeEmu.Proof.RouteTables
import CeforeEmu.Proof.NextHops
import CeforeEmu.Proof.Strategies
import CeforeEmu.Proof.LinkLookup
import CeforeEmu.Proof.StagedTeardown
import CeforeEmu.Proof.NodeDirs
import CeforeEmu.Proof.SummaryCsv
import CeforeEmu.Proof.LinkAcceptance
import CeforeEmu.Proof.LinkIsolation
import CeforeEmu.Proof.KCenters
import CeforeEmu.Proof.SpanningTree
import CeforeEmu.Proof.MinDegree
import CeforeEmu.Proof.SwitchUseAll
import CeforeEmu.Proof.FiniteSchedule
import CeforeEmu.Proof.Placement
import CeforeEmu.Proof.CsModes
import CeforeEmu.Proof.CleanupRetention
import CeforeEmu.Proof.LogNames
import CeforeEmu.Proof.PartialLogs
import CeforeEmu.Proof.SummaryColumns
import CeforeEmu.Proof.SockIds
import CeforeEmu.Proof.ConfReaders
import CeforeEmu.Proof.CcninfoBlocks
import CeforeEmu.Proof.DijkstraTree
import CeforeEmu.Proof.RouteMatch
import CeforeEmu.Proof.UnionFind
import CeforeEmu.Proof.AutotestSummary
import CeforeEmu.Proof.ConfigValue
import CeforeEmu.Proof.HostAppLogs
import CeforeEmu.Proof.ContentQueue
import CeforeEmu.Proof.LinearLine
import CeforeEmu.Proof.RoleCasting
import CeforeEmu.Proof.CampaignRuns
import CeforeEmu.Proof.Dashboard
