/-
`HealthChecker::run` as a task beside others. Between two joined results it runs the body of the join
loop, whose accesses to the pool are atomic steps: the look-up of a flag, the store of a mark, the
loads of its rebuild and the replacement of the healthy list. Other tasks count connections and read
the list between any two of them. The list they find is that of the sequential checker before or after
the result in hand.
-/
import Gungho.Health.ByAddress
import Gungho.Pool.Race

namespace Gungho.Health

open Gungho.Lib Gungho.Net Gungho.Pool

/-! ## The steps of the task -/

/-- Where the task is: at `join_next` or the timer, before a threshold check, in the mark call of the check, or before
the gauge is set. The check for the flag `false` comes first. -/
inductive Stage where
  | waiting
  | checking (addr : SocketAddr) (status : BackendStatus) (flag : Bool)
  | marking (addr : SocketAddr) (status : BackendStatus) (flag : Bool) (call : Phase)
  | gauging (addr : SocketAddr) (status : BackendStatus) (flag : Bool)
  deriving DecidableEq

/-- What the task owns. `joined` is the history, newest first, which the code does not keep. -/
structure Task where
  statusMap : SocketAddr → Option BackendStatus
  metrics : GunghoMetrics
  stage : Stage
  joined : List (SocketAddr × HealthCheckResult)

def Task.start (metrics : GunghoMetrics) : Task := ⟨fun _ => none, metrics, .waiting, []⟩

/-- The checker that the task and the pool make up. -/
def Task.checker (t : Task) (pool : BackendPool) : HealthChecker := ⟨pool, t.metrics, t.statusMap⟩

/-- The check task of the backend at an index is joined with a result, the task goes on, or the tick ends. -/
inductive TaskInput where
  | joined (index : Nat) (result : HealthCheckResult)
  | step
  | prune
  deriving DecidableEq

/-- The comparison of a threshold check. -/
def reached (config : HealthCheckConfig) (status : BackendStatus) : Bool → Bool
  | false => status.consecutiveFailures ≥ config.unhealthyThreshold
  | true => status.consecutiveSuccesses ≥ config.healthyThreshold

/-- What follows a threshold check. -/
def Stage.afterCheck (addr : SocketAddr) (status : BackendStatus) : Bool → Stage
  | false => .checking addr status true
  | true => .waiting

/-- The stage that the next step of a mark call leads to: the gauge is set after its last step. -/
def Stage.ofCall (addr : SocketAddr) (status : BackendStatus) (flag : Bool) : Option Phase → Stage
  | some call => .marking addr status flag call
  | none => .gauging addr status flag

/-- The next step of the task's mark call: no other task makes one. -/
def markStep (pool : BackendPool) (call : Phase) : BackendPool × Option Phase :=
  let s := (Race.start pool).advance 0 call
  (s.pool, s.calls 0)

/-- The next atomic step of the task. -/
def taskStep (config : HealthCheckConfig) (pool : BackendPool) (t : Task) : TaskInput → BackendPool × Task
  | .joined index result =>
    match t.stage, pool.allBackends[index]? with
    | .waiting, some b =>
      let status := ((t.checker pool).status b.addr).update result
      (pool, { t with
        statusMap := ((t.checker pool).count b.addr status).statusMap
        stage := .checking b.addr status false
        joined := (b.addr, result) :: t.joined })
    | _, _ => (pool, t)
  | .prune =>
    match t.stage with
    | .waiting => (pool, { t with statusMap := (prune (t.checker pool)).statusMap })
    | _ => (pool, t)
  | .step =>
    match t.stage with
    | .waiting => (pool, t)
    | .checking addr status flag =>
      if reached config status flag && pool.getHealthByAddr addr == some (!flag) then
        match pool.backends.find? (·.addr = addr) with
        | some b => (pool, { t with stage := .marking addr status flag (.store b flag) })
        | none => (pool, { t with stage := .gauging addr status flag })
      else (pool, { t with stage := .afterCheck addr status flag })
    | .marking addr status flag call =>
      let r := markStep pool call
      (r.1, { t with stage := .ofCall addr status flag r.2 })
    | .gauging addr status flag =>
      (pool, { t with
        metrics := t.metrics.setBackendHealth addr.toText flag
        stage := .afterCheck addr status flag })

theorem markStep_store (pool : BackendPool) (b : Backend) (flag : Bool) :
    markStep pool (.store b flag) =
      ({ pool with mem := b.setHealth flag pool.mem }, some (.collect [] pool.backends)) := rfl

theorem markStep_load (pool : BackendPool) (healthy : List Backend) (b : Backend) (rest : List Backend) :
    markStep pool (.collect healthy (b :: rest)) =
      (pool, some (.collect (if b.getHealth pool.mem then healthy ++ [b] else healthy) rest)) := rfl

theorem markStep_replace (pool : BackendPool) (healthy : List Backend) :
    markStep pool (.collect healthy []) = ({ pool with healthyCache := healthy }, none) := rfl

theorem markStep_backends (pool : BackendPool) (call : Phase) : (markStep pool call).1.backends = pool.backends := by
  match call with
  | .store _ _ => rfl
  | .collect _ (_ :: _) => rfl
  | .collect _ [] => rfl

/-! ## The sequential checker around the result in hand -/

section

variable (config : HealthCheckConfig)

/-- The sequential checker before the check for a flag, once the result is counted. -/
def checkFrom (s : HealthChecker) (addr : SocketAddr) (status : BackendStatus) : Bool → HealthChecker
  | false => s.count addr status
  | true => (s.count addr status).transition addr (reached config status false) false

/-- The sequential checker after the check for a flag. -/
def checkTo (s : HealthChecker) (addr : SocketAddr) (status : BackendStatus) (flag : Bool) : HealthChecker :=
  (checkFrom config s addr status flag).transition addr (reached config status flag) flag

theorem applyResult_eq_checkTo (s : HealthChecker) (addr : SocketAddr) (result : HealthCheckResult) :
    applyResult config s addr result = checkTo config s addr ((s.status addr).update result) true := rfl

theorem transition_skipped (s : HealthChecker) (addr : SocketAddr) (flag : Bool) :
    s.transition addr false flag = s := by
  simp [HealthChecker.transition]

variable {config}

/-- With thresholds of 1 or more at most one check marks: the pool is as before the result or as after it. -/
theorem checkFrom_pool (hpos : ∀ v, 1 ≤ threshold config v) (s : HealthChecker) (addr : SocketAddr)
    (result : HealthCheckResult) (flag : Bool) :
    let status := (s.status addr).update result
    (checkFrom config s addr status flag).pool = s.pool ∨
      (checkFrom config s addr status flag).pool = (applyResult config s addr result).pool := by
  intro status
  cases flag with
  | false => exact .inl rfl
  | true =>
    cases result with
    | healthy =>
      -- no failure is counted: the first check is skipped
      have hskip : reached config status false = false := decide_eq_false (not_le_zero (hpos false))
      refine .inl ?_
      rw [checkFrom, hskip, transition_skipped]
      rfl
    | unhealthy =>
      -- no success is counted: the second check is skipped
      have hskip : reached config status true = false := decide_eq_false (not_le_zero (hpos true))
      refine .inr ?_
      rw [applyResult_eq_checkTo, checkTo, show ((s.status addr).update .unhealthy) = status from rfl, hskip,
        transition_skipped]

end

/-! ## What the task mirrors of the sequential checker -/

/-- The pools have the same backends, flags and healthy list; their connections may differ. -/
structure SameHealth (p q : BackendPool) : Prop where
  backends : p.backends = q.backends
  flags : p.mem.healthy = q.mem.healthy
  cache : p.healthyCache = q.healthyCache

theorem SameHealth.refl (p : BackendPool) : SameHealth p p := ⟨rfl, rfl, rfl⟩

theorem SameHealth.trans {p q r : BackendPool} (h : SameHealth p q) (h' : SameHealth q r) : SameHealth p r :=
  ⟨h.backends.trans h'.backends, h.flags.trans h'.flags, h.cache.trans h'.cache⟩

theorem SameHealth.getHealthByAddr {p q : BackendPool} (h : SameHealth p q) (addr : SocketAddr) :
    p.getHealthByAddr addr = q.getHealthByAddr addr := by
  unfold BackendPool.getHealthByAddr Backend.getHealth
  rw [h.backends, h.flags]

/-- The checker `now` mirrors the state of the sequential checker `s`. -/
structure Mirrors (now s : HealthChecker) : Prop where
  health : SameHealth now.pool s.pool
  metrics : now.metrics = s.metrics
  counters : now.statusMap = s.statusMap

/-- The result in hand is the last one joined, and the sequential checker `s` is the one before it. -/
structure InHand (config : HealthCheckConfig) (start : HealthChecker) (joined : List (SocketAddr × HealthCheckResult))
    (addr : SocketAddr) (status : BackendStatus) (s : HealthChecker) (result : HealthCheckResult) : Prop where
  before : s = start.afterResults config joined.tail
  joined : joined.head? = some (addr, result)
  status : status = (s.status addr).update result

/-- The check for a flag marks. -/
def Marks (config : HealthCheckConfig) (s : HealthChecker) (addr : SocketAddr) (status : BackendStatus) (flag : Bool) :
    Prop :=
  reached config status flag = true ∧ s.pool.getHealthByAddr addr = some (!flag)

/-- The mark call of a check on its way: the store is to come, or the flag is stored and the list that the call
collects is right for the flags so far. -/
def OnTheWay (now s : HealthChecker) (addr : SocketAddr) (flag : Bool) : Phase → Prop
  | .store b flag' => flag' = flag ∧ s.pool.backends.find? (·.addr = addr) = some b ∧ Mirrors now s
  | .collect healthy rest => ∃ b, s.pool.backends.find? (·.addr = addr) = some b ∧
      Mirrors now { s with pool := { s.pool with mem := b.setHealth flag s.pool.mem } } ∧
      ∃ done, now.pool.backends = done ++ rest ∧ healthy = done.filter (·.getHealth now.pool.mem)

/-- What the checker `now` mirrors at a stage, of the sequential checker that starts from `start`. -/
def Stands (config : HealthCheckConfig) (start now : HealthChecker) (joined : List (SocketAddr × HealthCheckResult)) :
    Stage → Prop
  | .waiting => Mirrors now (start.afterResults config joined)
  | .checking addr status flag => ∃ s result, InHand config start joined addr status s result ∧
      Mirrors now (checkFrom config s addr status flag)
  | .marking addr status flag call => ∃ s result, InHand config start joined addr status s result ∧
      Marks config (checkFrom config s addr status flag) addr status flag ∧
      OnTheWay now (checkFrom config s addr status flag) addr flag call
  | .gauging addr status flag => ∃ s result, InHand config start joined addr status s result ∧
      Mirrors { now with metrics := now.metrics.setBackendHealth addr.toText flag } (checkTo config s addr status flag)

/-- Only addresses of the pool have counters or results. -/
structure Known (now : HealthChecker) (joined : List (SocketAddr × HealthCheckResult)) : Prop where
  counters : ∀ a, now.statusMap a ≠ none → a ∈ now.pool.backends.map (·.addr)
  joined : ∀ r ∈ joined, r.1 ∈ now.pool.backends.map (·.addr)

/-! ## One step -/

section

variable {config : HealthCheckConfig} {start now s : HealthChecker} {joined : List (SocketAddr × HealthCheckResult)}
  {addr : SocketAddr} {status : BackendStatus} {flag : Bool} {result : HealthCheckResult}

theorem Mirrors.of_same {p : BackendPool} (hp : SameHealth p now.pool) (h : Mirrors now s) :
    Mirrors { now with pool := p } s :=
  ⟨hp.trans h.health, h.metrics, h.counters⟩

/-- Other tasks, which change connections only, leave what a stage mirrors. -/
theorem stands_of_same {p : BackendPool} (hp : SameHealth p now.pool) {stage : Stage}
    (h : Stands config start now joined stage) : Stands config start { now with pool := p } joined stage := by
  cases stage with
  | waiting => exact Mirrors.of_same hp h
  | checking addr status flag =>
    obtain ⟨s, result, hand, hs⟩ := h
    exact ⟨s, result, hand, hs.of_same hp⟩
  | marking addr status flag call =>
    obtain ⟨s, result, hand, hm, hcall⟩ := h
    refine ⟨s, result, hand, hm, ?_⟩
    cases call with
    | store b flag' => exact ⟨hcall.1, hcall.2.1, hcall.2.2.of_same hp⟩
    | collect healthy rest =>
      obtain ⟨b, hb, hs, done, hdone, hlist⟩ := hcall
      refine ⟨b, hb, hs.of_same hp, done, hp.backends.trans hdone, hlist.trans ?_⟩
      unfold Backend.getHealth
      rw [hp.flags]
  | gauging addr status flag =>
    obtain ⟨s, result, hand, hs⟩ := h
    exact ⟨s, result, hand, hp.trans hs.health, hs.metrics, hs.counters⟩

/-- The stage after the check for a flag mirrors the checker after that check. -/
theorem stands_afterCheck (hand : InHand config start joined addr status s result)
    (h : Mirrors now (checkTo config s addr status flag)) :
    Stands config start now joined (.afterCheck addr status flag) := by
  cases flag with
  | false => exact ⟨s, result, hand, h⟩
  | true =>
    obtain ⟨hs, hjoined, rfl⟩ := hand
    show Mirrors now (start.afterResults config joined)
    obtain ⟨old, rfl⟩ := List.head?_eq_some_iff.1 hjoined
    have hnext : start.afterResults config ((addr, result) :: old) = applyResult config s addr result := by
      rw [hs]
      rfl
    rw [hnext, applyResult_eq_checkTo]
    exact h

theorem transition_eq_mark {b : Backend} (hm : Marks config s addr status flag)
    (hb : s.pool.backends.find? (·.addr = addr) = some b) :
    s.transition addr (reached config status flag) flag =
      { s with
        pool := (s.pool.mark (some b) flag).2
        metrics := s.metrics.setBackendHealth addr.toText flag } := by
  have hcond : (reached config status flag && s.pool.getHealthByAddr addr == some (!flag)) = true := by
    rw [hm.1, hm.2]
    simp
  have hmark : (if flag then s.pool.markHealthyByAddr addr else s.pool.markUnhealthyByAddr addr) =
      s.pool.mark (some b) flag := by
    rw [← hb]
    cases flag <;> rfl
  rw [HealthChecker.transition, if_pos hcond, hmark]

theorem transition_eq_self (hm : ¬ Marks config s addr status flag) :
    s.transition addr (reached config status flag) flag = s := by
  have hcond : ¬ (reached config status flag && s.pool.getHealthByAddr addr == some (!flag)) = true := by
    simpa [Marks] using hm
  rw [HealthChecker.transition, if_neg hcond]

/-- A step of the mark call: the store, a load, or the replacement of the list. -/
theorem onTheWay_step {call : Phase} (hm : Marks config s addr status flag) (h : OnTheWay now s addr flag call) :
    (∃ call', (markStep now.pool call).2 = some call' ∧
      OnTheWay { now with pool := (markStep now.pool call).1 } s addr flag call') ∨
    (markStep now.pool call).2 = none ∧
      Mirrors ⟨(markStep now.pool call).1, now.metrics.setBackendHealth addr.toText flag, now.statusMap⟩
        (s.transition addr (reached config status flag) flag) := by
  match call, h with
  | .store b flag', h =>
    obtain ⟨rfl, hb, hs⟩ := h
    rw [markStep_store]
    refine .inl ⟨_, rfl, b, hb, ⟨⟨hs.health.backends, ?_, hs.health.cache⟩, hs.metrics, hs.counters⟩, [], rfl, rfl⟩
    simp only [Backend.setHealth, hs.health.flags]
  | .collect healthy (c :: rest), h =>
    obtain ⟨b, hb, hs, done, hdone, hlist⟩ := h
    rw [markStep_load]
    refine .inl ⟨_, rfl, b, hb, hs, done ++ [c], ?_, ?_⟩
    · rw [List.append_assoc]
      exact hdone
    · rw [List.filter_append, ← hlist, List.filter_singleton]
      cases c.getHealth now.pool.mem <;> simp
  | .collect healthy [], h =>
    obtain ⟨b, hb, hs, done, hdone, hlist⟩ := h
    rw [markStep_replace, transition_eq_mark hm hb]
    refine .inr ⟨rfl, ⟨hs.health.backends, hs.health.flags, ?_⟩, ?_, hs.counters⟩
    · -- the list is right for all the flags
      rw [List.append_nil] at hdone
      show healthy = s.pool.backends.filter (·.getHealth (b.setHealth flag s.pool.mem))
      rw [hlist, ← hdone, hs.health.backends]
      refine List.filter_congr fun c _ => ?_
      unfold Backend.getHealth
      rw [hs.health.flags]
    · show now.metrics.setBackendHealth addr.toText flag = s.metrics.setBackendHealth addr.toText flag
      rw [hs.metrics]

theorem Known.prune_eq (h : Known now joined) : (prune now).statusMap = now.statusMap := by
  funext a
  show (if a ∈ now.pool.backends.map (·.addr) then now.statusMap a else none) = now.statusMap a
  rw [ite_eq_left_iff]
  intro ha
  by_contra hne
  exact ha (h.counters a (Ne.symm hne))

/-- A result starts the body of the loop. -/
theorem stands_joined (h : Mirrors now (start.afterResults config joined)) (addr : SocketAddr)
    (result : HealthCheckResult) :
    let status := (now.status addr).update result
    Stands config start (now.count addr status) ((addr, result) :: joined) (.checking addr status false) := by
  intro status
  have hstatus : status = ((start.afterResults config joined).status addr).update result := by
    simp only [status, HealthChecker.status, h.counters]
  refine ⟨start.afterResults config joined, result, ⟨rfl, rfl, hstatus⟩, ⟨h.health, h.metrics, ?_⟩⟩
  simp only [checkFrom, HealthChecker.count, h.counters]

theorem stands_step (t : Task) (pool : BackendPool) (hk : Known (t.checker pool) t.joined)
    (h : Stands config start (t.checker pool) t.joined t.stage) (i : TaskInput) :
    let r := taskStep config pool t i
    Stands config start (r.2.checker r.1) r.2.joined r.2.stage := by
  obtain ⟨statusMap, metrics, stage, joined⟩ := t
  cases i with
  | joined index result =>
    cases stage with
    | waiting =>
      simp only [taskStep]
      rcases pool.allBackends[index]? with _ | b
      · exact h
      · exact stands_joined h b.addr result
    | _ => exact h
  | prune =>
    cases stage with
    | waiting =>
      have h : Mirrors _ _ := h
      exact ⟨h.health, h.metrics, hk.prune_eq.trans h.counters⟩
    | _ => exact h
  | step =>
    cases stage with
    | waiting => exact h
    | checking addr status flag =>
      obtain ⟨s, result, hand, hs⟩ := h
      have hlook : pool.getHealthByAddr addr = _ := hs.health.getHealthByAddr addr
      simp only [taskStep]
      split
      · rename_i hcond
        have hm : Marks config (checkFrom config s addr status flag) addr status flag := by
          rw [hlook] at hcond
          simpa [Marks] using hcond
        -- the flag was looked up, so the backend is there
        obtain ⟨b, hb, -⟩ := Option.map_eq_some_iff.1 hm.2
        have hb' : pool.backends.find? (·.addr = addr) = some b := by
          rw [show pool.backends = _ from hs.health.backends]
          exact hb
        simp only [hb']
        exact ⟨s, result, hand, hm, rfl, hb, hs⟩
      · rename_i hcond
        have hm : ¬ Marks config (checkFrom config s addr status flag) addr status flag := by
          rw [hlook] at hcond
          simpa [Marks] using hcond
        refine stands_afterCheck hand ?_
        rw [checkTo, transition_eq_self hm]
        exact hs
    | marking addr status flag call =>
      obtain ⟨s, result, hand, hm, hcall⟩ := h
      simp only [taskStep]
      rcases onTheWay_step hm hcall with ⟨call', hcalls, hway⟩ | ⟨hcalls, hmirrors⟩
      · rw [show (markStep pool call).2 = _ from hcalls]
        exact ⟨s, result, hand, hm, hway⟩
      · rw [show (markStep pool call).2 = _ from hcalls]
        exact ⟨s, result, hand, hmirrors⟩
    | gauging addr status flag =>
      obtain ⟨s, result, hand, hs⟩ := h
      exact stands_afterCheck hand hs

/-- Each step of the task leaves the backends as they are and takes results for their addresses only. -/
theorem known_step (config : HealthCheckConfig) (t : Task) (pool : BackendPool) (hk : Known (t.checker pool) t.joined)
    (i : TaskInput) :
    let r := taskStep config pool t i
    r.1.backends = pool.backends ∧ Known (r.2.checker r.1) r.2.joined := by
  obtain ⟨statusMap, metrics, stage, joined⟩ := t
  cases i with
  | joined index result =>
    cases stage with
    | waiting =>
      simp only [taskStep]
      rcases hb : pool.allBackends[index]? with _ | b
      · exact ⟨rfl, hk⟩
      · have haddr : b.addr ∈ pool.backends.map (·.addr) := List.mem_map_of_mem (List.mem_of_getElem? hb)
        refine ⟨rfl, fun a ha => ?_, fun r hr => ?_⟩
        · by_cases hab : a = b.addr
          · exact hab ▸ haddr
          · simp only [Task.checker, HealthChecker.count, if_neg hab] at ha
            exact hk.counters a ha
        · rcases List.mem_cons.1 hr with rfl | hr
          · exact haddr
          · exact hk.joined r hr
    | _ => exact ⟨rfl, hk⟩
  | prune =>
    cases stage with
    | waiting =>
      refine ⟨rfl, fun a ha => hk.counters a ?_, hk.joined⟩
      rw [← hk.prune_eq]
      exact ha
    | _ => exact ⟨rfl, hk⟩
  | step =>
    cases stage with
    | waiting => exact ⟨rfl, hk⟩
    | checking addr status flag =>
      simp only [taskStep]
      split
      · split <;> exact ⟨rfl, hk⟩
      · exact ⟨rfl, hk⟩
    | marking addr status flag call =>
      have hbackends := markStep_backends pool call
      refine ⟨hbackends, fun a ha => ?_, fun r hr => ?_⟩
      · simp only [taskStep, Task.checker, hbackends]
        exact hk.counters a ha
      · simp only [taskStep, Task.checker, hbackends]
        exact hk.joined r hr
    | gauging addr status flag => exact ⟨rfl, hk.counters, hk.joined⟩

end

/-! ## The list that others find -/

section

variable {config : HealthCheckConfig} {bs : List Backend} {start now : HealthChecker}
  {joined : List (SocketAddr × HealthCheckResult)}

/-- The list is the backends in rotation on all results joined, or on all but the one in hand. -/
def Current (config : HealthCheckConfig) (bs : List Backend) (joined : List (SocketAddr × HealthCheckResult))
    (stage : Stage) (list : List Backend) : Prop :=
  list = bs.filter (inRotation config bs joined) ∨
    stage ≠ .waiting ∧ list = bs.filter (inRotation config bs joined.tail)

theorem watched_joined (hpos : ∀ v, 1 ≤ threshold config v) (hs : Watched config bs [] start)
    (hj : ∀ r ∈ joined, r.1 ∈ bs.map (·.addr)) : Watched config bs joined (start.afterResults config joined) := by
  have h := watched_after hpos hs hj
  rwa [List.append_nil] at h

/-- Before and after each of the two checks on the result in hand. -/
theorem current_of_pool (hpos : ∀ v, 1 ≤ threshold config v) (hs : Watched config bs [] start)
    (hj : ∀ r ∈ joined, r.1 ∈ bs.map (·.addr)) {s : HealthChecker} {addr : SocketAddr} {status : BackendStatus}
    {result : HealthCheckResult} (hand : InHand config start joined addr status s result) {pool : BackendPool}
    (hpool : pool = s.pool ∨ pool = (applyResult config s addr result).pool) {stage : Stage}
    (hstage : stage ≠ .waiting) :
    Current config bs joined stage pool.healthyBackends := by
  obtain ⟨rfl, hjoined, rfl⟩ := hand
  obtain ⟨old, rfl⟩ := List.head?_eq_some_iff.1 hjoined
  rcases hpool with rfl | rfl
  · exact .inr ⟨hstage, (watched_joined hpos hs fun r hr => hj r (List.mem_cons_of_mem _ hr)).flags.2⟩
  · exact .inl (watched_joined hpos hs hj).flags.2

/-- Wherever the task stands, the list in the pool is current. -/
theorem current_of_stands (hpos : ∀ v, 1 ≤ threshold config v) (hs : Watched config bs [] start)
    (hj : ∀ r ∈ joined, r.1 ∈ bs.map (·.addr)) {stage : Stage} (h : Stands config start now joined stage) :
    Current config bs joined stage now.pool.healthyBackends := by
  cases stage with
  | waiting =>
    have h : Mirrors now (start.afterResults config joined) := h
    exact .inl (h.health.cache.trans (watched_joined hpos hs hj).flags.2)
  | checking addr status flag =>
    obtain ⟨s, result, hand, hmirrors⟩ := h
    have hpool := checkFrom_pool hpos s addr result flag
    rw [← hand.status] at hpool
    have hcache : now.pool.healthyBackends = (checkFrom config s addr status flag).pool.healthyBackends :=
      hmirrors.health.cache
    rw [hcache]
    exact current_of_pool hpos hs hj hand hpool nofun
  | marking addr status flag call =>
    obtain ⟨s, result, hand, -, hcall⟩ := h
    have hpool := checkFrom_pool hpos s addr result flag
    rw [← hand.status] at hpool
    -- the call replaces the list in its last step only
    have hcache : now.pool.healthyBackends = (checkFrom config s addr status flag).pool.healthyBackends := by
      cases call with
      | store b flag' => exact hcall.2.2.health.cache
      | collect healthy rest =>
        obtain ⟨b, -, hcall, -⟩ := hcall
        exact hcall.health.cache
    rw [hcache]
    exact current_of_pool hpos hs hj hand hpool nofun
  | gauging addr status flag =>
    obtain ⟨s, result, hand, hmirrors⟩ := h
    have hpool : (checkTo config s addr status flag).pool = s.pool ∨
        (checkTo config s addr status flag).pool = (applyResult config s addr result).pool := by
      cases flag with
      | false =>
        rw [hand.status]
        exact checkFrom_pool hpos s addr result true
      | true => exact .inr (by rw [applyResult_eq_checkTo, hand.status])
    have hcache : now.pool.healthyBackends = (checkTo config s addr status flag).pool.healthyBackends :=
      hmirrors.health.cache
    rw [hcache]
    exact current_of_pool hpos hs hj hand hpool nofun

end

end Gungho.Health
