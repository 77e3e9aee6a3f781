import Mports.BlessIndex
import Mports.CargoCrates
import Mports.CargoPatches
import Mports.ChecksumScript
import Mports.ChecksumSoundness
import Mports.ChrootRecovery
import Mports.ChunkedStreams
import Mports.CratesUpdate
import Mports.DependencyConstraints
import Mports.DependsClosures
import Mports.DependsList
import Mports.DependsOrigins
import Mports.DistfilePaths
import Mports.Distinfo
import Mports.DnsNames
import Mports.DnsQueries
import Mports.ChecksumRecovery
import Mports.IndexResolution
import Mports.LicensePermissions
import Mports.LicenseStatus
import Mports.LineScans
import Mports.MagusAgreement
import Mports.MagusClosedResults
import Mports.MagusDaemon
import Mports.MagusFetchGate
import Mports.MagusFinishedRuns
import Mports.MagusIndependence
import Mports.MagusPackages
import Mports.MagusPrefetch
import Mports.MagusProgress
import Mports.MagusReadyCount
import Mports.MagusRebuilds
import Mports.MagusScanVerdict
import Mports.MagusSettled
import Mports.MagusShutdown
import Mports.MagusSignals
import Mports.MagusTimestamps
import Mports.MakeIndex
import Mports.MakeWords
import Mports.MakefileDiff
import Mports.MakesumScript
import Mports.McpBatch
import Mports.McpShortestPaths
import Mports.McpTopBlockers
import Mports.MovedExport
import Mports.MovedLint
import Mports.MovedLintStatus
import Mports.OptionImplies
import Mports.OptionLayers
import Mports.PackageMessages
import Mports.PassClosure
import Mports.PatchComments
import Mports.PatchNames
import Mports.PatchScript
import Mports.PatchSplit
import Mports.PlistComments
import Mports.PlistSubSort
import Mports.PortRemoval
import Mports.PortTestOutcome
import Mports.RedisReplies
import Mports.RevisionBump
import Mports.RevisionTargets
import Mports.RunDeletion
import Mports.ShellText
import Mports.SourceDomains
import Mports.UrlText
import Mports.UserGroupOffsets
import Mports.UserGroups
import Mports.ZfsGuards
import Mports.OptionsFile
import Mports.PatchStability
import Mports.McpSessions
import Mports.RemovalRun
import Mports.PythonVersions
