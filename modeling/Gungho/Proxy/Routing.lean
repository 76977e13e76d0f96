/-
The proxy and the health checker on one pool. Any number of requests take their atomic steps while the
checker's task counts results, marks backends and replaces the healthy list. Whatever the interleaving
is, a request is routed by the documented automaton: it goes to a backend that was in rotation on the
results joined when it took its snapshot, and is refused only if there was none. In rotation is a backend
that the automaton holds healthy, and where addresses repeat also one behind another of its address.
-/
import Gungho.Admin
import Gungho.Health.Task
import Gungho.Proxy.Handle

namespace Gungho.Proxy

open Gungho.Lib Gungho.Lb Gungho.Net Gungho.Pool Gungho.Health

/-! ## The components together -/

/-- The proxy and the health checker's task, which work on the proxy's pool. Each has metrics of its own. -/
structure Service where
  proxy : Proxy
  task : Task

def Service.start (p : Proxy) (metrics : GunghoMetrics) : Service := ⟨p, .start metrics⟩

/-- A step of the health checker's task. -/
def Service.check (config : HealthCheckConfig) (s : Service) (i : TaskInput) : Service :=
  let r := taskStep config s.proxy.pool s.task i
  ⟨{ s.proxy with pool := r.1 }, r.2⟩

section

variable (w : ℕ) (parseUri : Text → Option Uri) (config : HealthCheckConfig)

/-- A step of a request. -/
def Service.handle (s : Service) (t : Handling) (i : Input) : Service × Handling :=
  let r := handleRequest w parseUri s.proxy t i
  (⟨r.1, s.task⟩, r.2)

/-- Requests arrive, requests take steps, the task takes steps. -/
def tending (s : Threads Service Handling) :
    Sched TaskInput (Request × RandomRange) Input → Unit × Threads Service Handling :=
  interleave (Service.check config) (fun r => .start r.1 r.2) (Service.handle w parseUri) s

end

/-! ## What a request does with its snapshot -/

/-- A call of `select` on a list: it answers `None` if the list is empty and only then. -/
def On (list : List Backend) : Call → Prop
  | .enter backends _ _ => backends = list
  | .done (.ok none) => list = []
  | .done (.ok (some _)) => list ≠ []
  | .done (.error _) => list ≠ []
  | _ => list ≠ []

/-- The request is forwarded to a backend of the list, with its own target and its own headers rewritten. -/
structure PassesOn (parseUri : Text → Option Uri) (list : List Backend) (req : Request) (b : Backend) (uri : Uri)
    (headers : HeaderMap) : Prop where
  listed : b ∈ list
  target : parseUri (backendUri b.addr req.pathAndQuery) = some uri
  rewritten : rewriteRequest req.headers req.clientAddr b.addr = .ok headers

/-- The response to a request that was forwarded is the backend's or says that there is none; a request is refused
only on an empty list. -/
def Answers (list : List Backend) : Option Backend → Response → Prop
  | none, resp => list = [] ∧ resp = serviceUnavailable
  | some b, resp => b ∈ list ∧ (resp = badGateway ∨ resp = gatewayTimeout ∨
      ∃ status headers ended, resp = ⟨status, rewriteResponse headers, .incoming ended⟩)

/-- How a request ends on the list. -/
def Ends (parseUri : Text → Option Uri) (list : List Backend) (req : Request) : Exit → Prop
  | .returned guard resp => Answers list guard resp
  | .rejected resp => resp = badRequest ∧ ∃ b ∈ list, parseUri (backendUri b.addr req.pathAndQuery) = none
  | .dropped => True
  | .panicked _ => list ≠ []

/-- Where a request is whose snapshot is the list. -/
def Routed (parseUri : Text → Option Uri) (list : List Backend) (req : Request) : Handling → Prop
  | .start req' _ => req' = req
  | .selecting req' healthy call => req' = req ∧ healthy = list ∧ On list call
  | .guarding b uri headers => PassesOn parseUri list req b uri headers
  | .awaiting b uri headers => PassesOn parseUri list req b uri headers
  | .recording guard resp => Answers list guard resp
  | .observing guard resp => Answers list guard resp
  | .leaving b exit => b ∈ list ∧ Ends parseUri list req exit
  | .ended exit => Ends parseUri list req exit

section

variable {w : ℕ} {parseUri : Text → Option Uri} {list : List Backend} {req : Request}

theorem on_next {call : Call} (h : On list call) (mem : Mem) (strategy : Strategy) :
    On list (call.next w mem strategy).2 := by
  cases call with
  | enter backends clientAddr rng =>
    have h : backends = list := h
    subst h
    have hdone : ∀ index, On backends (.done (.ok (if backends.isEmpty then none else some index))) := by
      intro index
      by_cases hb : backends = []
      · rw [if_pos (by simpa using hb)]
        exact hb
      · rw [if_neg (by simpa using hb)]
        exact hb
    cases strategy with
    | roundRobin s =>
      have hsel : (s.select w backends).1 = if backends.isEmpty then none else some (s.counter % backends.length) := by
        unfold RoundRobin.select
        split <;> rfl
      show On backends (.done (.ok (s.select w backends).1))
      rw [hsel]
      exact hdone _
    | ipHash => exact hdone _
    | random => exact hdone _
    | leastConnections =>
      by_cases hb : backends = []
      · subst hb
        exact rfl
      · simp only [Call.next, Call.nextLeast, if_neg (show ¬ backends.isEmpty = true by simpa using hb)]
        exact hb
    | weightedRoundRobin s =>
      by_cases hb : backends = []
      · subst hb
        exact rfl
      · simp only [Call.next, Call.nextWeighted, if_neg (show ¬ backends.isEmpty = true by simpa using hb)]
        exact hb
  | scan rest least =>
    have hne : list ≠ [] := h
    cases strategy with
    | leastConnections =>
      cases rest with
      | nil => exact hne
      | cons entry rest => exact hne
    | _ => exact hne
  | add i rest l =>
    have hne : list ≠ [] := h
    cases strategy with
    | weightedRoundRobin s =>
      cases rest with
      | nil =>
        simp only [Call.next, Call.nextWeighted]
        split <;> exact hne
      | cons b rest =>
        simp only [Call.next, Call.nextWeighted]
        split <;> exact hne
    | _ => exact hne
  | load i rest l =>
    have hne : list ≠ [] := h
    cases strategy with
    | weightedRoundRobin s =>
      simp only [Call.next, Call.nextWeighted]
      split <;> exact hne
    | _ => exact hne
  | reload i rest l =>
    have hne : list ≠ [] := h
    cases strategy <;> exact hne
  | done result => cases strategy <;> exact h

theorem routed_chosen {result : Except Lb.Panic (Option ℕ)} (h : On list (.done result)) :
    Routed parseUri list req (chosen parseUri req list result) := by
  rcases result with panic | _ | index
  · exact h
  · exact ⟨h, rfl⟩
  · simp only [chosen]
    rcases hb : list[index]? with _ | b
    · exact h
    · have hmem := List.mem_of_getElem? hb
      rcases huri : parseUri (backendUri b.addr req.pathAndQuery) with _ | uri
      · simp only [huri]
        exact ⟨rfl, b, hmem, huri⟩
      · simp only [huri]
        rcases hheaders : rewriteRequest req.headers req.clientAddr b.addr with e | headers
        · exact h
        · exact ⟨hmem, huri, hheaders⟩

/-- Passing the body on changes neither the backend nor the response's head. -/
theorem ends_relay {exit : Exit} (h : Ends parseUri list req exit) (i : Input) :
    Ends parseUri list req (exit.relay i) := by
  unfold Exit.relay
  split
  · rename_i guard status headers
    cases guard with
    | none =>
      obtain ⟨-, hresp⟩ := h
      cases hresp
    | some b =>
      obtain ⟨hb, hresp | hresp | ⟨status', headers', ended, hresp⟩⟩ := h
      · cases hresp
      · cases hresp
      · cases hresp
        exact ⟨hb, .inr (.inr ⟨_, headers', true, rfl⟩)⟩
  · exact h

/-- The request has taken its snapshot, or was dropped before it could. -/
def Handling.started : Handling → Bool
  | .start _ _ => false
  | _ => true

/-- A request that has its snapshot goes on with it. -/
theorem routed_going {s : Proxy} {t : Handling} (hstarted : t.started = true) (h : Routed parseUri list req t)
    (i : Input) :
    (handleRequest w parseUri s t i).2.started = true ∧
      Routed parseUri list req (handleRequest w parseUri s t i).2 := by
  cases t with
  | start req' rng => cases hstarted
  | selecting req' healthy call =>
    obtain ⟨rfl, rfl, hcall⟩ := h
    cases i with
    | go elapsed =>
      rcases hr : call.result with _ | result
      · simp only [handleRequest, hr]
        exact ⟨rfl, rfl, rfl, on_next hcall _ _⟩
      · simp only [handleRequest, hr]
        constructor
        · rcases chosen_cases parseUri req' healthy result with ⟨message, hc⟩ | hc | hc | ⟨c, -, uri, headers, hc⟩ <;>
            rw [hc] <;> rfl
        · refine routed_chosen ?_
          cases call with
          | done result' =>
            cases hr
            exact hcall
          | _ => cases hr
    | _ => exact ⟨rfl, rfl, rfl, hcall⟩
  | guarding b uri headers => cases i <;> exact ⟨rfl, h⟩
  | awaiting b uri headers =>
    have hb : b ∈ list := h.listed
    cases i with
    | respond status headers ended => exact ⟨rfl, hb, .inr (.inr ⟨status, headers, ended, rfl⟩)⟩
    | fail => exact ⟨rfl, hb, .inl rfl⟩
    | timeout => exact ⟨rfl, hb, .inr (.inl rfl)⟩
    | cancel => exact ⟨rfl, hb, trivial⟩
    | panic message => exact ⟨rfl, hb, List.ne_nil_of_mem hb⟩
    | _ => exact ⟨rfl, h⟩
  | recording guard resp => cases i <;> exact ⟨rfl, h⟩
  | observing guard resp =>
    cases i with
    | go elapsed =>
      cases guard with
      | none => exact ⟨rfl, h⟩
      | some b => exact ⟨rfl, h.1, h⟩
    | _ => exact ⟨rfl, h⟩
  | leaving b exit =>
    cases i with
    | go elapsed => exact ⟨rfl, h.2⟩
    | _ => exact ⟨rfl, h⟩
  | ended exit => cases i <;> exact ⟨rfl, ends_relay h _⟩

/-- A request goes on with its snapshot; one that has none yet takes the list of the pool. -/
theorem routed_step {s : Proxy} {t : Handling} (h : Routed parseUri list req t) (i : Input) :
    Routed parseUri list req (handleRequest w parseUri s t i).2 ∨
      Routed parseUri s.pool.healthyBackends req (handleRequest w parseUri s t i).2 := by
  cases t with
  | start req' rng =>
    cases i with
    | go elapsed => exact .inr ⟨h, rfl, rfl⟩
    | cancel => exact .inl trivial
    | _ => exact .inl h
  | _ => exact .inl (routed_going rfl h i).2

/-- A request's step changes connections, but neither the flags nor the list. -/
theorem Moved.sameHealth {s s' : Proxy} {t t' : Handling} {i : Input} (h : Moved w parseUri s t i s' t') :
    SameHealth s'.pool s.pool := by
  cases h <;> exact ⟨rfl, rfl, rfl⟩

end

/-! ## Every interleaving -/

section

variable {w : ℕ} {parseUri : Text → Option Uri} {config : HealthCheckConfig} {bs : List Backend} {start : HealthChecker}

/-- Between any two steps the task stands where the results joined so far leave it. -/
structure Tended (config : HealthCheckConfig) (bs : List Backend) (start : HealthChecker) (s : Service) : Prop where
  backends : s.proxy.pool.backends = bs
  known : Known (s.task.checker s.proxy.pool) s.task.joined
  stands : Stands config start (s.task.checker s.proxy.pool) s.task.joined s.task.stage

theorem tended_check {s : Service} (h : Tended config bs start s) (i : TaskInput) :
    Tended config bs start (s.check config i) := by
  obtain ⟨hbackends, hknown⟩ := known_step config s.task s.proxy.pool h.known i
  exact ⟨hbackends.trans h.backends, hknown, stands_step s.task s.proxy.pool h.known h.stands i⟩

theorem tended_handle {s : Service} (h : Tended config bs start s) (t : Handling) (i : Input) :
    Tended config bs start (s.handle w parseUri t i).1 := by
  have hsame := (handleRequest_moved w parseUri s.proxy t i).sameHealth
  have hmap : (s.handle w parseUri t i).1.proxy.pool.backends = s.proxy.pool.backends := hsame.backends
  refine ⟨hmap.trans h.backends, ⟨?_, ?_⟩, stands_of_same hsame h.stands⟩
  · intro a ha
    show a ∈ (s.handle w parseUri t i).1.proxy.pool.backends.map (·.addr)
    rw [hmap]
    exact h.known.counters a ha
  · intro r hr
    show r.1 ∈ (s.handle w parseUri t i).1.proxy.pool.backends.map (·.addr)
    rw [hmap]
    exact h.known.joined r hr

theorem Tended.current (hpos : ∀ v, 1 ≤ threshold config v) (hs : Watched config bs [] start) {s : Service}
    (h : Tended config bs start s) :
    Current config bs s.task.joined s.task.stage s.proxy.pool.healthyBackends :=
  current_of_stands hpos hs (by simpa [Task.checker, h.backends] using h.known.joined) h.stands

theorem Tended.mirrors {s : Service} (h : Tended config bs start s) (hwaiting : s.task.stage = .waiting) :
    Mirrors (s.task.checker s.proxy.pool) (start.afterResults config s.task.joined) := by
  have hstands := h.stands
  rw [hwaiting] at hstands
  exact hstands

theorem tended_start (config : HealthCheckConfig) (p : Proxy) (metrics : GunghoMetrics) :
    Tended config p.pool.backends (.start p.pool metrics) (.start p metrics) :=
  ⟨rfl, ⟨fun _ ha => absurd rfl ha, fun _ hr => absurd hr List.not_mem_nil⟩, ⟨.refl _, rfl, rfl⟩⟩

/-- The task's invariant needs nothing of the requests. -/
theorem modular_tended (w : ℕ) (parseUri : Text → Option Uri) (config : HealthCheckConfig) (bs : List Backend)
    (start : HealthChecker) : Modular (Service.check config) (fun r : Request × RandomRange => Handling.start r.1 r.2)
    (Service.handle w parseUri) (Tended config bs start) (fun _ _ => True) fun _ _ _ => True where
  env _ i h := ⟨tended_check h i, fun _ _ => trivial⟩
  spawn _ _ _ := trivial
  self _ t i h _ _ := ⟨tended_handle h t i, trivial⟩
  other _ _ _ _ _ _ _ _ := trivial

theorem tended_run (w : ℕ) (parseUri : Text → Option Uri) (config : HealthCheckConfig) (p : Proxy)
    (metrics : GunghoMetrics) (choices : List (Sched TaskInput (Request × RandomRange) Input)) :
    Tended config p.pool.backends (.start p.pool metrics)
      (run (tending w parseUri config) ⟨.start p metrics, []⟩ choices).2.shared :=
  (holds_run (modular_tended w parseUri config _ _) choices ⟨tended_start config p metrics, by simp⟩
    (along_free choices ⟨.start p metrics, []⟩)).1

/-- The list is the backends in rotation on all results joined so far, or on all but the one in hand. -/
theorem Tended.seen (hpos : ∀ v, 1 ≤ threshold config v) (hs : Watched config bs [] start) {s : Service}
    (h : Tended config bs start s) :
    ∃ seen, (seen = s.task.joined ∨ s.task.stage ≠ .waiting ∧ seen = s.task.joined.tail) ∧
      s.proxy.pool.healthyBackends = bs.filter (inRotation config bs seen) := by
  rcases h.current hpos hs with hlist | ⟨hstage, hlist⟩
  · exact ⟨_, .inl rfl, hlist⟩
  · exact ⟨_, .inr ⟨hstage, rfl⟩, hlist⟩

/-- Once it has taken its snapshot a request goes on with it, whatever the task and the other requests do. -/
theorem routed_from (w : ℕ) (parseUri : Text → Option Uri) (config : HealthCheckConfig) {s : Threads Service Handling}
    {k : ℕ} {req : Request} {rng : RandomRange} (hk : s.threads[k]? = some (.start req rng)) (elapsed : ℕ)
    (choices : List (Sched TaskInput (Request × RandomRange) Input)) :
    ∃ u, (run (tending w parseUri config) s (.step k (.go elapsed) :: choices)).2.threads[k]? = some u ∧
      u.started = true ∧ Routed parseUri s.shared.proxy.pool.healthyBackends req u :=
  kept_from (I := fun _ => True) (fun _ _ _ => trivial) (fun _ _ _ _ => trivial)
    (fun _ _ i _ h => routed_going h.1 h.2 i) trivial hk ⟨rfl, rfl, rfl, rfl⟩ choices

end

/-! ## The results -/

/-- Whenever the checker's task waits, its counters and gauges and the pool's flags and list are those of the
sequential checker after the results joined so far, whatever the requests have done meanwhile. -/
theorem waiting_eq_sequential (w : ℕ) (parseUri : Text → Option Uri) (config : HealthCheckConfig) (p : Proxy)
    (metrics : GunghoMetrics) (choices : List (Sched TaskInput (Request × RandomRange) Input)) :
    let s := (run (tending w parseUri config) ⟨.start p metrics, []⟩ choices).2.shared
    s.task.stage = .waiting →
      Mirrors (s.task.checker s.proxy.pool)
        ((HealthChecker.start p.pool metrics).afterResults config s.task.joined) := by
  intro s hwaiting
  exact (tended_run w parseUri config p metrics choices).mirrors hwaiting

/-- A proxy with one backend, whose check fails, and the checker's steps on the result. -/
def oneFails : List (Sched TaskInput (Request × RandomRange) Input) :=
  .outside (.joined 0 .unhealthy) :: List.replicate 6 (.outside .step)

theorem waiting_eq_sequential_one :
    let config : HealthCheckConfig := { unhealthyThreshold := 1 }
    let s := (run (tending 64 Uri.accept config) ⟨.start oneBackend .new, []⟩ oneFails).2.shared
    s.task.joined = [(.v4 ⟨10, 0, 0, 1⟩ 80, .unhealthy)] ∧
      Mirrors (s.task.checker s.proxy.pool)
        ((HealthChecker.start oneBackend.pool .new).afterResults config s.task.joined) :=
  ⟨rfl, waiting_eq_sequential 64 Uri.accept { unhealthyThreshold := 1 } oneBackend .new oneFails rfl⟩

/-- `/readyz` on a pool whose healthy list is the backends that satisfy `up`. -/
def readyzOf (bs : List Backend) (up : Backend → Bool) : StatusCode × Text :=
  if bs.any up then (.ok, readyzBody "ok".toList (bs.countP up))
  else (.serviceUnavailable, readyzBody "not ready".toList 0)

theorem handleReadyz_of_list {pool : BackendPool} {bs : List Backend} {up : Backend → Bool}
    (h : pool.healthyBackends = bs.filter up) : handleReadyz pool = readyzOf bs up := by
  unfold handleReadyz readyzOf
  rw [h, List.countP_eq_length_filter]
  by_cases hany : bs.any up = true
  · have hne : (bs.filter up).isEmpty = false := by
      simpa [List.isEmpty_eq_false_iff, List.filter_eq_nil_iff] using hany
    simp only [hne, hany, if_true, Bool.false_eq_true, if_false]
  · have hnil : (bs.filter up).isEmpty = true := by
      simpa [List.filter_eq_nil_iff] using hany
    simp only [hnil, hany, if_true, Bool.false_eq_true, if_false]

/-- In every state of every interleaving of the checker's atomic steps with the requests' the healthy list is the
backends in rotation on all the results joined so far, or on all but the one in hand, and `/readyz` answers for that
list. Where addresses are distinct these are the backends that the documented automaton holds healthy. -/
theorem healthyBackends_current (w : ℕ) (parseUri : Text → Option Uri) (config : HealthCheckConfig)
    (hu : 1 ≤ config.unhealthyThreshold) (hh : 1 ≤ config.healthyThreshold) (p : Proxy) (hf : p.pool.Fresh)
    (metrics : GunghoMetrics) (choices : List (Sched TaskInput (Request × RandomRange) Input)) :
    let s := (run (tending w parseUri config) ⟨.start p metrics, []⟩ choices).2.shared
    ∃ seen, (seen = s.task.joined ∨ s.task.stage ≠ .waiting ∧ seen = s.task.joined.tail) ∧
      s.proxy.pool.healthyBackends = p.pool.allBackends.filter (inRotation config p.pool.allBackends seen) ∧
      handleReadyz s.proxy.pool = readyzOf p.pool.allBackends (inRotation config p.pool.allBackends seen) ∧
      ((p.pool.allBackends.map (·.addr)).Nodup →
        s.proxy.pool.healthyBackends = p.pool.allBackends.filter (verdict config seen)) := by
  intro s
  have hpos := threshold_pos hu hh
  obtain ⟨seen, hseen, hlist⟩ :=
    (tended_run w parseUri config p metrics choices).seen hpos (watched_start hpos hf metrics)
  exact ⟨seen, hseen, hlist, handleReadyz_of_list hlist, fun hn => hlist.trans (filter_inRotation hn config seen)⟩

theorem healthyBackends_current_one :
    let config : HealthCheckConfig := { unhealthyThreshold := 1 }
    let bs := oneBackend.pool.allBackends
    let s := (run (tending 64 Uri.accept config) ⟨.start oneBackend .new, []⟩ (oneFails.take 4)).2.shared
    ∃ seen, (seen = s.task.joined ∨ s.task.stage ≠ .waiting ∧ seen = s.task.joined.tail) ∧
      s.proxy.pool.healthyBackends = bs.filter (inRotation config bs seen) ∧
      handleReadyz s.proxy.pool = readyzOf bs (inRotation config bs seen) ∧
      ((bs.map (·.addr)).Nodup → s.proxy.pool.healthyBackends = bs.filter (verdict config seen)) :=
  healthyBackends_current 64 Uri.accept { unhealthyThreshold := 1 } (by decide) (by decide) oneBackend
    ⟨by decide, rfl⟩ .new (oneFails.take 4)

/-- Whenever a request takes its snapshot, it goes to a backend that is in rotation on the results joined at that
moment (all of them, or all but the one in hand), with its own target and headers, and it is refused only if none is in
rotation on them, whatever is joined, marked and requested afterwards. Where addresses are distinct these are the
backends that the documented automaton holds healthy. -/
theorem routes_by_verdict (w : ℕ) (parseUri : Text → Option Uri) (config : HealthCheckConfig)
    (hu : 1 ≤ config.unhealthyThreshold) (hh : 1 ≤ config.healthyThreshold) (p : Proxy) (hf : p.pool.Fresh)
    (metrics : GunghoMetrics) (before after : List (Sched TaskInput (Request × RandomRange) Input)) (k elapsed : ℕ)
    (req : Request) (rng : RandomRange)
    (harrived : (run (tending w parseUri config) ⟨.start p metrics, []⟩ before).2.threads[k]? = some (.start req rng)) :
    let task := (run (tending w parseUri config) ⟨.start p metrics, []⟩ before).2.shared.task
    ∃ seen, (seen = task.joined ∨ task.stage ≠ .waiting ∧ seen = task.joined.tail) ∧
      ∃ u, (run (tending w parseUri config) ⟨.start p metrics, []⟩
          (before ++ .step k (.go elapsed) :: after)).2.threads[k]? = some u ∧
        Routed parseUri (p.pool.allBackends.filter (inRotation config p.pool.allBackends seen)) req u ∧
        ((p.pool.allBackends.map (·.addr)).Nodup →
          Routed parseUri (p.pool.allBackends.filter (verdict config seen)) req u) := by
  intro task
  have hpos := threshold_pos hu hh
  obtain ⟨seen, hseen, hlist⟩ :=
    (tended_run w parseUri config p metrics before).seen hpos (watched_start hpos hf metrics)
  obtain ⟨u, hu, -, hrouted⟩ := routed_from w parseUri config harrived elapsed after
  rw [hlist] at hrouted
  refine ⟨seen, hseen, u, ?_, hrouted, fun hn => filter_inRotation hn config seen ▸ hrouted⟩
  rw [run_append]
  exact hu

/-- The only backend fails its check and the request after it takes its snapshot; the backend comes back before the
request has chosen. -/
theorem routes_by_verdict_refused :
    let config : HealthCheckConfig := { unhealthyThreshold := 1, healthyThreshold := 1 }
    let bs := oneBackend.pool.allBackends
    let req : Request := ⟨.v4 ⟨192, 168, 1, 1⟩ 1234, none, ⟨[]⟩⟩
    let before := oneFails ++ [.spawn (req, .lowest)]
    let after :=
      .outside (.joined 0 .healthy) :: List.replicate 8 (.outside .step) ++ List.replicate 4 (.step 0 (.go 0))
    let task := (run (tending 64 Uri.accept config) ⟨.start oneBackend .new, []⟩ before).2.shared.task
    ∃ seen, (seen = task.joined ∨ task.stage ≠ .waiting ∧ seen = task.joined.tail) ∧
      ∃ u, (run (tending 64 Uri.accept config) ⟨.start oneBackend .new, []⟩
          (before ++ .step 0 (.go 0) :: after)).2.threads[0]? = some u ∧
        Routed Uri.accept (bs.filter (inRotation config bs seen)) req u ∧
        ((bs.map (·.addr)).Nodup → Routed Uri.accept (bs.filter (verdict config seen)) req u) := by
  intro config bs req before after task
  exact routes_by_verdict 64 Uri.accept config (by decide) (by decide) oneBackend ⟨by decide, rfl⟩ .new before after
    0 0 req .lowest rfl

end Gungho.Proxy
