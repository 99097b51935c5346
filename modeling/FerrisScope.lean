import FerrisScope.LabelledRuns
import FerrisScope.KeyedWrites
import FerrisScope.DirtyChannel
import FerrisScope.DirtyChannelRuns
import FerrisScope.JsonValue
import FerrisScope.WatcherLoop
import FerrisScope.RelistReconciliation
import FerrisScope.WatcherConvergence
import FerrisScope.TableViews
import FerrisScope.ReleaseIndex
import FerrisScope.ReleaseIndexRuns
import FerrisScope.HelmCharts
import FerrisScope.HelmChartsRuns
import FerrisScope.MergePatch
import FerrisScope.YamlEdit
import FerrisScope.YamlEditPatch
import FerrisScope.YamlEditFrame
import FerrisScope.KindSlots
import FerrisScope.WatcherRefcount
import FerrisScope.TeardownGate
import FerrisScope.SingleFlight
import FerrisScope.SingleFlightRuns
import FerrisScope.LoopbackAddresses
import FerrisScope.GlobalForwards
import FerrisScope.ForwardOwnership
import FerrisScope.HostEntries
import FerrisScope.DynamicWatcher
import FerrisScope.LogFollow
import FerrisScope.SearchWriter
import FerrisScope.ClusterTabs
import FerrisScope.AccessCache
import FerrisScope.AccessCacheRuns
import FerrisScope.HelperClient
import FerrisScope.HostsFile
import FerrisScope.HelperServer
import FerrisScope.HelperConfinement
import FerrisScope.WireFraming
import FerrisScope.ChatMessages
import FerrisScope.ToolPairs
import FerrisScope.RepairedTranscripts
import FerrisScope.SessionEvents
import FerrisScope.DerivedCodecs
import FerrisScope.SessionCodec
import FerrisScope.SessionLog
import FerrisScope.ApprovalGate
import FerrisScope.TurnGate
import FerrisScope.ChatTurns
import FerrisScope.GrowingTranscripts
import FerrisScope.ReplayedChats
import FerrisScope.QueuedMessages
import FerrisScope.RedactedErrors
import FerrisScope.IdentityPin
import FerrisScope.LogPodWatch
import FerrisScope.ScopedTable
import FerrisScope.PermissionReviews
import FerrisScope.PermissionReviewsRuns
import FerrisScope.PermissionAnswers
import FerrisScope.ObjectStatuses
import FerrisScope.ObjectStatusAnswers
import FerrisScope.KubeconfigContexts
import FerrisScope.ContextIds
import FerrisScope.KubeconfigEdits
import FerrisScope.KubeconfigProtection
import FerrisScope.ObservedPods
import FerrisScope.PodUnion
import FerrisScope.GeminiSchema
import FerrisScope.GeminiPasses
import FerrisScope.GeminiDialect
import FerrisScope.GeminiSources
import FerrisScope.GeminiDeclarations
import FerrisScope.GeminiSanitize
import FerrisScope.CronFields
import FerrisScope.GregorianDates
import FerrisScope.CronSchedules
import FerrisScope.RepositoryCaches
import FerrisScope.OauthLogin
import FerrisScope.Saver
import FerrisScope.NodeShellPods
import FerrisScope.ReleaseNotes
import FerrisScope.ReleaseNotesCache
import FerrisScope.EntryLists
import FerrisScope.JsonText
import FerrisScope.SessionSnapshot
import FerrisScope.ClusterConnection
import FerrisScope.CircularCells
import FerrisScope.LogRings
import FerrisScope.BinarySearches
import FerrisScope.IncrementalSorts
import FerrisScope.HostsLaws
import FerrisScope.LogLoop
import FerrisScope.HostsTerminators
import FerrisScope.HostsPurge
import FerrisScope.ChartMetadata
import FerrisScope.ChartUids
import FerrisScope.ServiceEnabling
import FerrisScope.CronNextRuns
import FerrisScope.ClusterShortNames
import FerrisScope.LogSources
import FerrisScope.FieldFlatten
import FerrisScope.NaturalSort
import FerrisScope.SearchRetention
import FerrisScope.ListCuts
import FerrisScope.SecretScan
import FerrisScope.TrailingUserRuns
import FerrisScope.SwallowedTriggers
import FerrisScope.SecretBytes
import FerrisScope.TurnRounds
import FerrisScope.McpRequests
import FerrisScope.SchemaReferences
import FerrisScope.GeminiTurns
import FerrisScope.KeyedAccumulators
import FerrisScope.StreamedToolCalls
import FerrisScope.AnthropicMessages
import FerrisScope.CompactionWindow
import FerrisScope.CharacterBoundaries
import FerrisScope.SpilledOutput
import FerrisScope.TextSearch
import FerrisScope.StderrTail
import FerrisScope.LeftmostScans
import FerrisScope.SpilledSearch
import FerrisScope.DeletedContexts
import FerrisScope.RepinnedIdentities
import FerrisScope.PathComponents
import FerrisScope.PinOffers
import FerrisScope.TokenSlots
import FerrisScope.LabelQueries
import FerrisScope.LogForwarder
import FerrisScope.SelectorQueries
import FerrisScope.TableFilters
import FerrisScope.PrinterColumns
import FerrisScope.PrinterPaths
import FerrisScope.PodTotals
import FerrisScope.CronJobHistory
import FerrisScope.FileTrees
import FerrisScope.PackageSync
import FerrisScope.LikePatterns
import FerrisScope.SearchQueries
import FerrisScope.AccountIds
import FerrisScope.FetchedText
import FerrisScope.FallibleActions
import FerrisScope.ManagedInstalls
import FerrisScope.ApplicationDeletion
import FerrisScope.GitOpsPatches
import FerrisScope.ClusterLabels
import FerrisScope.ShellEnvironment
import FerrisScope.AgentSettings
import FerrisScope.SettingsMigration
import FerrisScope.SessionRestore
import FerrisScope.BrowserHistory
import FerrisScope.ChatMirror
import FerrisScope.CredentialStore
import FerrisScope.DrawerOrder
import FerrisScope.TabRefinement
import FerrisScope.CodexTurns
import FerrisScope.HealthProbe
import FerrisScope.LaggingReceivers
import FerrisScope.MetricsPolls
import FerrisScope.SealedStore
