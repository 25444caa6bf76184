import Luhut.LabelledRuns
import Luhut.InterleavedCalls
import Luhut.Sessions
import Luhut.DartInt
import Luhut.DartJson
import Luhut.JsonPrefixes
import Luhut.UriComponent
import Luhut.WordDivision
import Luhut.TextPattern
import Luhut.KeywordPattern
import Luhut.PatternPairs
import Luhut.NginxLexer
import Luhut.TextLines
import Luhut.HostsFile
import Luhut.HereString
import Luhut.WindowsArguments
import Luhut.PowerShellWords
import Luhut.ProcessManager
import Luhut.ProcessRuns
import Luhut.ProcessStops
import Luhut.ProcessReclaim
import Luhut.AppSessions
import Luhut.AppConfig
import Luhut.SettingsPage
import Luhut.NginxConf
import Luhut.NginxPorts
import Luhut.NginxSaves
import Luhut.NginxPasses
import Luhut.NginxDirectives
import Luhut.NginxTokens
import Luhut.NginxRuns
import Luhut.NginxServers
import Luhut.ConfigManager
import Luhut.ConfigText
import Luhut.ConfigFile
import Luhut.NginxFile
import Luhut.SaveFaults
import Luhut.SaveHistory
import Luhut.SaveOrder
import Luhut.ReplicaConvergence
import Luhut.ReplicaAgreement
import Luhut.SettingsSave
import Luhut.SettingsSessions
import Luhut.ServicePorts
import Luhut.HostsManager
import Luhut.HostsScript
import Luhut.HostsElevation
import Luhut.HostsRedirects
import Luhut.HostsExact
import Luhut.SitesDirectory
import Luhut.SitesCard
import Luhut.HostsAppends
import Luhut.FixAllRounds
import Luhut.SiteNames
import Luhut.HostsGrowth
import Luhut.SitesCardRuns
import Luhut.SiteReach
import Luhut.SitesPage
import Luhut.SiteCards
