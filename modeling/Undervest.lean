import Undervest.Lib.FixedWidth
import Undervest.Lib.Unordered
import Undervest.Lib.Transition
import Undervest.Lib.Enumeration
import Undervest.Lib.Heap
import Undervest.Lib.PercentEncoding
import Undervest.Lib.Refinement
import Undervest.Lib.Iterators
import Undervest.Lib.Pieces
import Undervest.Lib.Climb
import Undervest.Lib.Brackets
import Undervest.Lib.CyclicRedundancy
import Undervest.Lib.Simulation
import Undervest.Lib.Handles
import Undervest.Strings
import Undervest.Scaled
import Undervest.Substring
import Undervest.Matcher
import Undervest.MatcherResults
import Undervest.Slices
import Undervest.Counters
import Undervest.Scores
import Undervest.Source
import Undervest.Domain
import Undervest.Decision
import Undervest.Thresholds
import Undervest.EmptySlices
import Undervest.Refresh
import Undervest.Retries
import Undervest.RetryTimes
import Undervest.Configuration
import Undervest.Milter
import Undervest.FilePath
import Undervest.FilePathCells
import Undervest.FilePathAlgebra
import Undervest.FilePathText
import Undervest.Uri
import Undervest.FilePathAssign
import Undervest.UriFront
import Undervest.UriPositions
import Undervest.UriText
import Undervest.UriAuthority
import Undervest.UriExceptions
import Undervest.Ipv6
import Undervest.Ipv6Rule
import Undervest.UriRoundTrip
import Undervest.MilterSocket
import Undervest.SourceLog
import Undervest.Sendmail
import Undervest.Ldap
import Undervest.SearchFilter
import Undervest.Credentials
import Undervest.Recipients
import Undervest.Scheduler
import Undervest.Ownership
import Undervest.Interleaving
import Undervest.EventQueue
import Undervest.RunLoop
import Undervest.Crc32
import Undervest.BasicSubstring
import Undervest.SubstringOrder
import Undervest.SubstringSearch
import Undervest.Explode
import Undervest.Loader
import Undervest.DaemonLock
import Undervest.ScaledOrder
import Undervest.ScaledText
import Undervest.DomainCopies
import Undervest.Objects
import Undervest.Reloading
import Undervest.Server
import Undervest.Contexts
import Undervest.Sessions
import Undervest.Openings
import Undervest.Pinning
import Undervest.Turns
import Undervest.Evidence
import Undervest.Delivery
import Undervest.Loading
import Undervest.Instances
import Undervest.Daemons
import Undervest.CommandLine
import Undervest.Aliases
import Undervest.Libraries
import Undervest.RefreshQueue
import Undervest.LdapRelease
import Undervest.Startup
