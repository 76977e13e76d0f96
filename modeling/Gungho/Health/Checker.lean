/-
The health checker: `health.rs`. A tick spawns one check task for each backend and joins them in
the order they finish; every joined result updates the counters kept by address and may mark the
backend. The counters are `u32` and wrap.
-/
import Gungho.Lib.Run
import Gungho.Metrics
import Gungho.Pool.Backend

namespace Gungho.Health

open Gungho.Lib Gungho.Net Gungho.Pool

inductive HealthCheckResult where
  | healthy
  | unhealthy
  deriving DecidableEq, Repr

structure BackendStatus where
  consecutiveSuccesses : UInt32
  consecutiveFailures : UInt32
  deriving DecidableEq, Repr

def BackendStatus.update (status : BackendStatus) : HealthCheckResult → BackendStatus
  | .healthy => ⟨status.consecutiveSuccesses + 1, 0⟩
  | .unhealthy => ⟨0, status.consecutiveFailures + 1⟩

/-- What `HealthChecker::run` owns or shares: the pool, the metrics and its `status_map`. -/
structure HealthChecker where
  pool : BackendPool
  metrics : GunghoMetrics
  statusMap : SocketAddr → Option BackendStatus

/-- The checker as it enters the loop. -/
def HealthChecker.start (pool : BackendPool) (metrics : GunghoMetrics) : HealthChecker :=
  ⟨pool, metrics, fun _ => none⟩

/-- `status_map.entry(addr).or_insert(..)`. -/
def HealthChecker.status (s : HealthChecker) (addr : SocketAddr) : BackendStatus :=
  (s.statusMap addr).getD ⟨0, 0⟩

/-- `status.update(..)` on the entry of `addr`. -/
def HealthChecker.count (s : HealthChecker) (addr : SocketAddr) (status : BackendStatus) : HealthChecker :=
  { s with statusMap := fun a => if a = addr then some status else s.statusMap a }

/-- What both threshold checks share: when the threshold is reached and the flag is still the
other one, mark the backend and set its gauge. -/
def HealthChecker.transition (s : HealthChecker) (addr : SocketAddr) (reached healthy : Bool) : HealthChecker :=
  if reached && s.pool.getHealthByAddr addr == some (!healthy) then
    { s with
      pool := (if healthy then s.pool.markHealthyByAddr addr else s.pool.markUnhealthyByAddr addr).2
      metrics := s.metrics.setBackendHealth addr.toText healthy }
  else s

/-- The body of the join loop: count the result, then compare both counters with their thresholds. -/
def applyResult (config : HealthCheckConfig) (s : HealthChecker) (addr : SocketAddr) (result : HealthCheckResult) :
    HealthChecker :=
  let status := (s.status addr).update result
  ((s.count addr status).transition addr (status.consecutiveFailures ≥ config.unhealthyThreshold) false).transition
    addr (status.consecutiveSuccesses ≥ config.healthyThreshold) true

/-- `while let Some(Ok(..)) = set.join_next().await`: a task that ended in a `JoinError` (`none`)
ends the loop. -/
def joinAll (config : HealthCheckConfig) (s : HealthChecker) :
    List (Option (SocketAddr × HealthCheckResult)) → HealthChecker
  | [] => s
  | none :: _ => s
  | some (addr, result) :: rest => joinAll config (applyResult config s addr result) rest

/-- `status_map.retain`: only addresses of the pool keep their counters. -/
def prune (s : HealthChecker) : HealthChecker :=
  { s with statusMap := fun a => if a ∈ s.pool.allBackends.map (·.addr) then s.statusMap a else none }

/-- The check tasks of one tick: how each ends (`none` for a `JoinError`) and the order in which
they are joined. -/
structure Tick (backends : List Backend) where
  outcome : Backend → Option HealthCheckResult
  joined : List Backend
  order : joined.Perm backends

/-- What `join_next` yields in turn. -/
def Tick.results {bs : List Backend} (t : Tick bs) : List (Option (SocketAddr × HealthCheckResult)) :=
  t.joined.map fun b => (t.outcome b).map fun result => (b.addr, result)

/-- One tick of the loop in `HealthChecker::run`. -/
def tick (config : HealthCheckConfig) {bs : List Backend} (s : HealthChecker) (t : Tick bs) : Unit × HealthChecker :=
  ((), prune (joinAll config s t.results))

end Gungho.Health
