import TortaCore.Blocklist.Provenance
import TortaCore.Blocklist.Crown
import TortaCore.Dns.Echo
import TortaCore.Resolver.CacheLog
import TortaCore.Resolver.Relay
import TortaCore.Resolver.Lifetime
import TortaCore.Dns.Reverse
import TortaCore.Resolver.DohBypass
import TortaCore.Resolver.Forged
import TortaCore.Resolver.Dns64Rebind
import TortaCore.Resolver.RebindSafety
import TortaCore.Resolver.Dnscrypt
import TortaCore.Resolver.Pool
import TortaCore.Resolver.Routing
import TortaCore.Resolver.Homograph
import TortaCore.Resolver.QueryFeed
import TortaCore.Resolver.Base64
import TortaCore.Firewall.Fingerprint
import TortaCore.Tunnel.Gate
import TortaCore.Firewall.Sweep
import TortaCore.Firewall.Persist
import TortaCore.Tunnel.Frame
import TortaCore.Tunnel.Failure
import TortaCore.Mirror.Loopback
import TortaCore.Mirror.SingleFlight
import TortaCore.Mirror.WarmUp
import TortaCore.Mirror.Discovery
import TortaCore.Underground.Licence
import TortaCore.Beast.Fairness
import TortaCore.Elevation.Grant
import TortaCore.Solver.Hysteresis
