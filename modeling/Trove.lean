import Trove.Authn.Convergence
import Trove.Authn.Phc
import Trove.Authn.Robot
import Trove.Authn.Rotation
import Trove.Authn.TokenScope
import Trove.Authn.Unbounded
import Trove.Authz.Listing
import Trove.Blob.Layout
import Trove.Blob.QuarantineMoves
import Trove.Blob.S3Buffer
import Trove.Cache.Orphan
import Trove.Event.Id
import Trove.Eventbus.Outbox
import Trove.Gc.Grace
import Trove.Gc.Resume
import Trove.Groupserve.Noninterference
import Trove.Groupserve.Stored
import Trove.Meta.Migrate
import Trove.Policy.Cycles
import Trove.Policy.Patterns
import Trove.Policy.Safety
import Trove.Policy.Strength
import Trove.Proxy.Containment
import Trove.Proxy.Staging
import Trove.Proxy.Throttle
import Trove.Proxyserve.Clients
import Trove.Proxyserve.Pull
import Trove.Proxyserve.Route
import Trove.Registry.Cascade
import Trove.Registry.Closure
import Trove.Registry.Patch
import Trove.Registry.Routes
import Trove.Server.Bindings
