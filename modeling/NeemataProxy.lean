import NeemataProxy.Router.Theorems
import NeemataProxy.Router.Forwarding
import NeemataProxy.Router.Cookie
import NeemataProxy.Router.Lru
import NeemataProxy.Router.Cleanup
import NeemataProxy.Router.CookieFields
import NeemataProxy.Router.Rewrite
import NeemataProxy.Router.Limits
import NeemataProxy.Router.Locking
import NeemataProxy.Router.Sliding
import NeemataProxy.Router.KeyGeneration
import NeemataProxy.Router.Normalisation
import NeemataProxy.Proxy.Registry
import NeemataProxy.Proxy.Lemmas.Handles
import NeemataProxy.Proxy.Theorems
import NeemataProxy.Proxy.UpdateTheorems
import NeemataProxy.Proxy.RouteTheorems
import NeemataProxy.Proxy.Notifiers
import NeemataProxy.Proxy.Joined
import NeemataProxy.Proxy.Removal
import NeemataProxy.Proxy.FailedStart
import NeemataProxy.Proxy.Hostnames
import NeemataProxy.Proxy.Locality
import NeemataProxy.Proxy.Naming
import NeemataProxy.Proxy.RebuildOrder
import NeemataProxy.Traffic.Theorems
import NeemataProxy.Traffic.Sessions
import NeemataProxy.Router.Linearizable
import NeemataProxy.Router.Occupancy
import NeemataProxy.Proxy.OptionChecks
import NeemataProxy.Proxy.HealthChecks
import NeemataProxy.Proxy.Membership
import NeemataProxy.Proxy.Progress
import NeemataProxy.Proxy.Restoration
import NeemataProxy.Traffic.Answers
import NeemataProxy.Traffic.Connections
import NeemataProxy.Traffic.Visibility
import NeemataProxy.Traffic.Failures
import NeemataProxy.Traffic.Progress
import NeemataProxy.Traffic.Stickiness
