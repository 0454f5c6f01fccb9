import Puregit.Merge
import Puregit.Protocol.V2
import Puregit.Pack.Agreement
import Puregit.Server.Consistency
import Puregit.Server.Boundary
import Puregit.Server.Cut
import Puregit.Server.Serve
import Puregit.Server.Frontends
import Puregit.Server.Discovery
import Puregit.Server.Thin
import Puregit.Server.Atomic
import Puregit.Server.Frame
import Puregit.Server.Edge
import Puregit.DiffMerge
import Puregit.Object.Canonical
import Puregit.TreeFlatten
import Puregit.Config.RoundTrip
import Puregit.Odb.Absence
import Puregit.Index.RoundTrip
import Puregit.Pack.Reachability
import Puregit.Refs.History
import Puregit.Ignore
import Puregit.Client.Response
import Puregit.Server.Connectivity
import Puregit.Fsck
import Puregit.Prune
import Puregit.Repack
import Puregit.Odb.Run
import Puregit.MultiPackIndex
import Puregit.CommitGraph
import Puregit.Signing.RoundTrip
import Puregit.Walk.RevWalk
import Puregit.Diff.Conflict
import Puregit.Diff.Patch
import Puregit.Object.SignedBytes
import Puregit.Object.TagSignature
import Puregit.Refs.RoundTrip
import Puregit.Glob
import Puregit.Client.Backfill
import Puregit.Client.Fetch
import Puregit.Client.Update
import Puregit.Protocol.Stream
import Puregit.Protocol.RoundTrip
import Puregit.Protocol.Push
import Puregit.Protocol.Sections
import Puregit.Server.Stream
import Puregit.Signing.Armor
import Puregit.Transport.DumbHttp
import Puregit.Transport.Ssh
import Puregit.Client.LsRefs
import Puregit.Lfs.Json
import Puregit.Lfs.Attributes
import Puregit.Porcelain.Dates
import Puregit.Porcelain.TreeLines
import Puregit.Porcelain.Revision
import Puregit.Refs.Concurrent
import Puregit.Client.Delivery
import Puregit.Status
import Puregit.Client.Retrieval
