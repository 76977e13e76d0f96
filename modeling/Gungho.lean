import Gungho.Lib.Run
import Gungho.Lib.Credit
import Gungho.Lib.Trail
import Gungho.Lib.Multimap
import Gungho.Lib.Series
import Gungho.Lib.Threads
import Gungho.Lib.Filling
import Gungho.Lib.FlagMap
import Gungho.Lib.Residue
import Gungho.Lib.Journal
import Gungho.Lib.Damping
import Gungho.Lib.Leveling
import Gungho.Net.Addr
import Gungho.Net.Parse
import Gungho.Net.RoundTrip
import Gungho.Config
import Gungho.Metrics
import Gungho.Pool.Backend
import Gungho.Pool.Distinct
import Gungho.Pool.Race
import Gungho.Pool.Handles
import Gungho.Pool.Keyed
import Gungho.Admin
import Gungho.Health.Checker
import Gungho.Health.Automaton
import Gungho.Health.JoinErrors
import Gungho.Health.Marks
import Gungho.Health.Check
import Gungho.Health.Gauge
import Gungho.Health.ByAddress
import Gungho.Health.Flapping
import Gungho.Health.Task
import Gungho.Lb.WeightedRoundRobin
import Gungho.Lb.Strategy
import Gungho.Lb.Call
import Gungho.Lb.Serve
import Gungho.Lb.Exact
import Gungho.Lb.Drift
import Gungho.Lb.Fairness
import Gungho.Lb.Proportion
import Gungho.Lb.Identity
import Gungho.Lb.Sticky
import Gungho.Lb.Concurrent
import Gungho.Lb.Rotation
import Gungho.Lb.Reach
import Gungho.Proxy.Header
import Gungho.Proxy.Rewrite
import Gungho.Proxy.Traceparent
import Gungho.Proxy.Forwarded
import Gungho.Proxy.HopByHop
import Gungho.Proxy.Stages
import Gungho.Proxy.Chain
import Gungho.Proxy.Handle
import Gungho.Proxy.Sequential
import Gungho.Proxy.Shares
import Gungho.Proxy.Affinity
import Gungho.Proxy.Guard
import Gungho.Proxy.Relay
import Gungho.Proxy.Account
import Gungho.Proxy.Filling
import Gungho.Proxy.Balance
import Gungho.Proxy.Target
import Gungho.Proxy.Routing
import Gungho.Proxy.Drain
import Gungho.Proxy.Failover
import Gungho.Proxy.Readiness
import Gungho.Proxy.Progress
import Gungho.Proxy.Panics
import Gungho.Proxy.Credits
import Gungho.Proxy.Turns
import Gungho.Proxy.Startup
