import EliteEvents.Lib.BoundedQueue
import EliteEvents.Lib.Decimal
import EliteEvents.Lib.EventStream
import EliteEvents.Lib.Glob
import EliteEvents.Lib.Interleaving
import EliteEvents.Lib.Mixing
import EliteEvents.Lib.PercentEncoding
import EliteEvents.Lib.Prog
import EliteEvents.Lib.Ranking
import EliteEvents.Lib.Records
import EliteEvents.Lib.Redis
import EliteEvents.Lib.RedisFrame
import EliteEvents.Lib.RedisLemmas
import EliteEvents.Lib.RedisView
import EliteEvents.Lib.Regex
import EliteEvents.Lib.Renaming
import EliteEvents.Lib.Runs
import EliteEvents.Lib.Text
import EliteEvents.Lib.TimeSpan
import EliteEvents.Lib.TimedMap
import EliteEvents.Lib.Utf8
import EliteEvents.Proofs.BatchWindows
import EliteEvents.Proofs.Broadcast
import EliteEvents.Proofs.BroadcastStore
import EliteEvents.Proofs.Builders
import EliteEvents.Proofs.Calendar
import EliteEvents.Proofs.Calls
import EliteEvents.Proofs.CarrierHistory
import EliteEvents.Proofs.Catalog
import EliteEvents.Proofs.ConfigDigest
import EliteEvents.Proofs.Containment
import EliteEvents.Proofs.Convergence
import EliteEvents.Proofs.DataPresence
import EliteEvents.Proofs.Discipline
import EliteEvents.Proofs.DockingMap
import EliteEvents.Proofs.Drain
import EliteEvents.Proofs.DryRun
import EliteEvents.Proofs.Durations
import EliteEvents.Proofs.FeedWrites
import EliteEvents.Proofs.Filing
import EliteEvents.Proofs.FinalizerFirst
import EliteEvents.Proofs.Heartbeat
import EliteEvents.Proofs.HubLifecycle
import EliteEvents.Proofs.IndexAgreement
import EliteEvents.Proofs.IndexHandover
import EliteEvents.Proofs.IndexUpkeep
import EliteEvents.Proofs.Isolation
import EliteEvents.Proofs.KeyMigration
import EliteEvents.Proofs.KeyNames
import EliteEvents.Proofs.KeySchema
import EliteEvents.Proofs.Labels
import EliteEvents.Proofs.Leaderboard
import EliteEvents.Proofs.LiveTicker
import EliteEvents.Proofs.Liveness
import EliteEvents.Proofs.MaintenanceRecovery
import EliteEvents.Proofs.MaintenanceSchedule
import EliteEvents.Proofs.MessageTimes
import EliteEvents.Proofs.OutageLog
import EliteEvents.Proofs.PartitionChange
import EliteEvents.Proofs.Platform
import EliteEvents.Proofs.PodConfiguration
import EliteEvents.Proofs.Quiescence
import EliteEvents.Proofs.QuietRebuild
import EliteEvents.Proofs.Readiness
import EliteEvents.Proofs.RebuildRace
import EliteEvents.Proofs.Reconnects
import EliteEvents.Proofs.Retention
import EliteEvents.Proofs.Search
import EliteEvents.Proofs.SelfCleaning
import EliteEvents.Proofs.SelfWake
import EliteEvents.Proofs.Served
import EliteEvents.Proofs.ShardHash
import EliteEvents.Proofs.ShardPartition
import EliteEvents.Proofs.ShardedIngestion
import EliteEvents.Proofs.StationSpellings
import EliteEvents.Proofs.StatusCoherence
import EliteEvents.Proofs.StreamCodec
import EliteEvents.Proofs.StreamShutdown
import EliteEvents.Proofs.StreamingCondition
import EliteEvents.Proofs.SystemCount
import EliteEvents.Proofs.Teardown
import EliteEvents.Proofs.TickerPage
import EliteEvents.Proofs.TickerPath
import EliteEvents.Proofs.TypedStore
import EliteEvents.Proofs.Vetting
import EliteEvents.Proofs.VisitWeeks
import EliteEvents.Proofs.WebAnswers
import EliteEvents.Proofs.WebSearch
import EliteEvents.Proofs.WriterOrder
import EliteEvents.Spec.Controller
import EliteEvents.Spec.DockingReader
import EliteEvents.Spec.DockingWriter
import EliteEvents.Spec.FeedListener
import EliteEvents.Spec.Heartbeat
import EliteEvents.Spec.HubLifecycle
import EliteEvents.Spec.IndexMaintenance
import EliteEvents.Spec.Ingestion
import EliteEvents.Spec.KeyFixer
import EliteEvents.Spec.Kubernetes
import EliteEvents.Spec.LiveEventHub
import EliteEvents.Spec.MaintenanceSchedule
import EliteEvents.Spec.Namespace
import EliteEvents.Spec.Operator
import EliteEvents.Spec.Platform
import EliteEvents.Spec.PodConfiguration
import EliteEvents.Spec.Receiver
import EliteEvents.Spec.RedisKeys
import EliteEvents.Spec.Resources
import EliteEvents.Spec.SearchIndex
import EliteEvents.Spec.ShardFilter
import EliteEvents.Spec.StatusPoll
import EliteEvents.Spec.StreamConnection
import EliteEvents.Spec.StreamEndpoint
import EliteEvents.Spec.StreamHealth
import EliteEvents.Spec.TickerPage
import EliteEvents.Spec.Watchdog
import EliteEvents.Spec.Watches
import EliteEvents.Spec.WebApi
import EliteEvents.Spec.WebSearch
import EliteEvents.Spec.WeeklyReset
import EliteEvents.Spec.WriterRuns
