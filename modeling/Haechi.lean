import Haechi.Audit.Tamper
import Haechi.Audit.Verify
import Haechi.Lock.Guarded
import Haechi.Core.Protect
import Haechi.Core.StreamHold
import Haechi.Core.StreamJson
import Haechi.Core.Leaves
import Haechi.Core.Marked
import Haechi.Core.Walk
import Haechi.Filter.Folded
import Haechi.Filter.Mistyped
import Haechi.Filter.Encoded
import Haechi.Filter.CustomRules
import Haechi.Policy.Bundle
import Haechi.Policy.Privacy
import Haechi.Policy.Profiles
import Haechi.Proxy.Bodies
import Haechi.Proxy.Draining
import Haechi.Proxy.Headers
import Haechi.Proxy.Models
import Haechi.Crypto.NonceBudget
import Haechi.Crypto.KeyCrash
import Haechi.Crypto.KmsClient
import Haechi.Crypto.Rotation
import Haechi.Vault.RoundTrip
import Haechi.Vault.Governance
import Haechi.Vault.Operations
import Haechi.Proxy.Recovery
import Haechi.Proxy.Restore
import Haechi.Proxy.Echo
import Haechi.Proxy.Trail
import Haechi.Redis.LockedStores
import Haechi.Redis.RateStore
import Haechi.Auth.Bearer
import Haechi.Auth.Jwt
import Haechi.Mcp.Coverage
import Haechi.Mcp.Wrap
import Haechi.Oidc.Ceiling
import Haechi.Oidc.Login
import Haechi.Plugin.Manifest
import Haechi.Plugin.Respawn
import Haechi.Plugin.Versions
import Haechi.Stream.Terminators
import Haechi.Proxy.RateSweep
import Haechi.Ssrf.Parity
import Haechi.Ssrf.KeyFetcher
import Haechi.Audit.Torn
import Haechi.Audit.Summary
import Haechi.Dashboard.ChainStatus
import Haechi.Dashboard.Events
import Haechi.Dashboard.Gate
import Haechi.Dashboard.RateLimiter
import Haechi.Metrics.Collector
import Haechi.Cli.Runtime
import Haechi.Mcp.Stderr
