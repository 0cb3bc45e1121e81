import CeCdn.MeshAuth
import CeCdn.MeshCeiling
import CeCdn.Trustless
import CeCdn.ReadPaths
import CeCdn.HostFacts
import CeCdn.CacheRefines
import CeCdn.Client
import CeCdn.Lib.Chunks
import CeCdn.Lib.Lru
import CeCdn.Lib.Machine
import CeCdn.Lib.Text
import CeCdn.Lib.KeyRing
import CeCdn.Pop
import CeCdn.Presign
import CeCdn.Server
import CeCdn.ServerFacts
import CeCdn.OneRule
import CeCdn.HttpAccess
import CeCdn.ReplayOnce
import CeCdn.HttpBytes
import CeCdn.Catalog
import CeCdn.CatalogKept
import CeCdn.Lib.Framing
import CeCdn.Signed
import CeCdn.AnyManifest
import CeCdn.CacheInvariant
import CeCdn.Lib.Places
import CeCdn.SingleFlight
import CeCdn.ReadCounts
import CeCdn.Herd
import CeCdn.HerdOnce
import CeCdn.FailedFetch
import CeCdn.Lib.Ordered
import CeCdn.Maintain
import CeCdn.MaintainFacts
import CeCdn.MaintainRace
import CeCdn.Cli
import CeCdn.Holders
import CeCdn.CatalogSave
import CeCdn.CatalogAtomic
import CeCdn.ClientRange
import CeCdn.ColdBound
import CeCdn.Lib.TextFacts
import CeCdn.RangeHeader
import CeCdn.RangeServe
import CeCdn.PopExact
import CeCdn.PresignLink
import CeCdn.Lib.Best
import CeCdn.Replication
import CeCdn.Shortfall
import CeCdn.SeenTokens
import CeCdn.CacheFlow
import CeCdn.CacheTombstones
import CeCdn.PassReport
import CeCdn.LockRelease
import CeCdn.StatusHealth
import CeCdn.IfNoneMatch
import CeCdn.LinkLifetime
import CeCdn.HandlerTotal
import CeCdn.Invalidation
import CeCdn.Passes
import CeCdn.ServeHistory
import CeCdn.ServeProgress
import CeCdn.Calls
import CeCdn.HttpHistory
import CeCdn.Lib.Exposition
import CeCdn.Pages
import CeCdn.Published
import CeCdn.Vouched
import CeCdn.Bounded
import CeCdn.Head
