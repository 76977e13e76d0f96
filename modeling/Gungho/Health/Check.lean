/-
The check tasks and the start of the checker: `HealthChecker::check` and the first lines of
`HealthChecker::run` in `health.rs`, with the panics of both. `tokio::time::interval` panics on a
zero period, and a check panics when the request cannot be built, which is when `http://{addr}{path}`
is no URI. The URI parser behind hyper's request builder is a parameter.
-/
import Gungho.Health.Checker

namespace Gungho.Health

open Gungho.Lib Gungho.Net Gungho.Pool

/-! ## Panics -/

inductive CheckerPanic where
  | zeroPeriod
  | buildRequest
  deriving DecidableEq, Repr

/-- The period of `tokio::time::interval`, in seconds. -/
def interval (period : UInt64) : Except CheckerPanic UInt64 :=
  if period = 0 then .error .zeroPeriod else .ok period

/-! ## A check -/

/-- What awaiting the request under the timeout yields. -/
inductive Exchange where
  | response (status : StatusCode)
  | error
  | elapsed
  deriving DecidableEq, Repr

def checkUri (addr : SocketAddr) (path : Text) : Text := "http://".toList ++ addr.toText ++ path

section

variable (isUri : Text → Bool)

def check (addr : SocketAddr) (path : Text) (exchange : Exchange) :
    Except CheckerPanic (SocketAddr × HealthCheckResult) :=
  if isUri (checkUri addr path) then
    match exchange with
    | .response status => .ok (addr, if status = .ok then .healthy else .unhealthy)
    | .error => .ok (addr, .unhealthy)
    | .elapsed => .ok (addr, .unhealthy)
  else .error .buildRequest

/-- What the backends answer to the checks of one tick, and the order in which they finish. -/
structure Round (backends : List Backend) where
  exchange : Backend → Exchange
  joined : List Backend
  order : joined.Perm backends

/-- The check that the round spawns for a backend. -/
def Round.check {bs : List Backend} (r : Round bs) (config : HealthCheckConfig) (b : Backend) :
    Except CheckerPanic (SocketAddr × HealthCheckResult) :=
  Health.check isUri b.addr config.path (r.exchange b)

/-- The tick of the round: a check that panics is joined as a `JoinError`. -/
def Round.tick {bs : List Backend} (r : Round bs) (config : HealthCheckConfig) : Tick bs :=
  ⟨fun b => (r.check isUri config b).toOption.map (·.2), r.joined, r.order⟩

/-- The panic of a task, if it ends in one. -/
def panicOf {α : Type} : Except CheckerPanic α → Option CheckerPanic
  | .error panic => some panic
  | .ok _ => none

/-- One tick, with the panics of its check tasks. -/
def roundStep (config : HealthCheckConfig) {bs : List Backend} (s : HealthChecker) (r : Round bs) :
    List CheckerPanic × HealthChecker :=
  (bs.filterMap fun b => panicOf (r.check isUri config b), (tick config s (r.tick isUri config)).2)

/-- `HealthChecker::run` over the rounds: the panics of its own and of its check tasks. -/
def panics (config : HealthCheckConfig) (pool : BackendPool) (metrics : GunghoMetrics)
    (rounds : List (Round pool.allBackends)) : List CheckerPanic :=
  match interval config.interval with
  | .error panic => [panic]
  | .ok _ => (run (roundStep isUri config) (.start pool metrics) rounds).1.flatten

/-! ## When nothing panics -/

theorem panicOf_check_eq_none_iff (addr : SocketAddr) (path : Text) (exchange : Exchange) :
    panicOf (check isUri addr path exchange) = none ↔ isUri (checkUri addr path) = true := by
  unfold check
  split
  · rename_i h
    cases exchange <;> simp [panicOf, h]
  · rename_i h
    simp [panicOf, h]

/-- The rounds' check tasks never panic, whatever is answered, exactly when every request can be
built. -/
theorem rounds_panic_free_iff (config : HealthCheckConfig) {bs : List Backend} (s : HealthChecker) :
    (∀ rounds : List (Round bs), (run (roundStep isUri config) s rounds).1.flatten = []) ↔
      ∀ b ∈ bs, isUri (checkUri b.addr config.path) = true := by
  constructor
  · intro h b hb
    have hone := h [⟨fun _ => .elapsed, bs, .refl _⟩]
    simp only [run_cons, run_nil, roundStep, List.flatten_cons, List.flatten_nil, List.append_nil,
      List.filterMap_eq_nil_iff] at hone
    exact (panicOf_check_eq_none_iff isUri b.addr config.path .elapsed).1 (hone b hb)
  · intro h rounds
    rw [List.flatten_eq_nil_iff]
    refine outputs_run (fun _ => True) (· = []) (fun s r _ _ => ⟨?_, trivial⟩) rounds s trivial (along_true rounds s)
    exact List.filterMap_eq_nil_iff.2 fun b hb => (panicOf_check_eq_none_iff isUri b.addr config.path _).2 (h b hb)

/-- What holds of every backend's address holds of every address the configuration parses to. -/
theorem forall_config_addr_iff {bs : List Backend} {cs : List BackendConfig}
    (h : List.Forall₂ (fun b c => SocketAddr.parse c.addr = some b.addr ∧ b.weight = c.weight) bs cs)
    (P : SocketAddr → Prop) :
    (∀ c ∈ cs, ∀ addr, SocketAddr.parse c.addr = some addr → P addr) ↔ ∀ b ∈ bs, P b.addr := by
  induction h with
  | nil => simp
  | cons hbc _ ih =>
    rw [List.forall_mem_cons, List.forall_mem_cons, ih, hbc.1]
    exact and_congr_left fun _ => ⟨fun h => h _ rfl, fun h addr e => by cases e; exact h⟩

/-- On an accepted configuration the pool is built, and neither the checker nor a check task ever
panics, exactly when the interval is not zero and every backend's address with the path is a URI. -/
theorem panics_nil_iff (cfg : Config) (hv : cfg.validate = .ok ()) (metrics : GunghoMetrics) :
    ∃ pool, BackendPool.fromConfig cfg.backends = .ok pool ∧
      ((∀ rounds, panics isUri cfg.healthCheck pool metrics rounds = []) ↔
        cfg.healthCheck.interval ≠ 0 ∧ ∀ c ∈ cfg.backends, ∀ addr, SocketAddr.parse c.addr = some addr →
          isUri (checkUri addr cfg.healthCheck.path) = true) := by
  obtain ⟨hne, -, hparse⟩ := (validate_ok_iff cfg).1 hv
  obtain ⟨pool, hpool⟩ := BackendPool.fromConfig_total hne hparse
  refine ⟨pool, hpool, ?_⟩
  have hentries := (BackendPool.fromConfig_ok hpool).2.2.2
  rw [forall_config_addr_iff hentries fun addr => isUri (checkUri addr cfg.healthCheck.path) = true]
  by_cases hzero : cfg.healthCheck.interval = 0
  · refine iff_of_false (fun h => ?_) fun h => h.1 hzero
    have := h []
    simp [panics, interval, hzero] at this
  · have hpanics : ∀ rounds, panics isUri cfg.healthCheck pool metrics rounds =
        (run (roundStep isUri cfg.healthCheck) (.start pool metrics) rounds).1.flatten := by
      simp [panics, interval, hzero]
    simp only [hpanics]
    exact (rounds_panic_free_iff isUri cfg.healthCheck _).trans (and_iff_right hzero).symm

end

theorem panics_nil_default :
    ∃ pool, BackendPool.fromConfig [⟨"10.0.0.1:80".toList, 1⟩] = .ok pool ∧
      ∀ rounds, panics (fun text => text.all Graphic) {} pool .new rounds = [] := by
  obtain ⟨pool, hpool, h⟩ := panics_nil_iff (fun text => text.all Graphic)
    { backends := [⟨"10.0.0.1:80".toList, 1⟩] } (by decide) .new
  refine ⟨pool, hpool, h.2 ⟨by decide, fun c hc addr haddr => ?_⟩⟩
  rw [List.mem_singleton.1 hc,
    show SocketAddr.parse "10.0.0.1:80".toList = some (.v4 ⟨10, 0, 0, 1⟩ 80) by decide] at haddr
  cases haddr
  decide

/-- A configuration with interval 0 is accepted, and the checker panics as it starts. -/
theorem zero_interval_panics :
    let cfg : Config := { backends := [⟨"10.0.0.1:80".toList, 1⟩], healthCheck := { interval := 0 } }
    cfg.validate = .ok () ∧ ∃ pool, BackendPool.fromConfig cfg.backends = .ok pool ∧
      panics (fun text => text.all Graphic) cfg.healthCheck pool .new [] = [.zeroPeriod] := by
  intro cfg
  obtain ⟨pool, hpool⟩ := BackendPool.fromConfig_total (show cfg.backends ≠ [] by simp [cfg]) (by decide)
  exact ⟨by decide, pool, hpool, rfl⟩

end Gungho.Health
