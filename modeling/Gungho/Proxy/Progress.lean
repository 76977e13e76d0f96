/-
How many steps a party takes. The algorithm and the number of backends bound how many atomic steps a request
executes up to its exchange with the backend, and from there to its end; the number of backends bounds how many the
health checker's task executes on a result. The steps that others take in between add none: a loop runs over a list
that was read before it, and none is run again. These are bounds on the number of steps, not on time: a step that
takes a lock is one step, however long it waits for the lock.
-/
import Gungho.Proxy.Routing

namespace Gungho

open Gungho.Lib Gungho.Lb Gungho.Net Gungho.Pool Gungho.Health

/-! ## Calls of `select` -/

/-- The steps of a call on `n` backends. -/
def Algorithm.steps (n : ℕ) : Algorithm → ℕ
  | .weightedRoundRobin => 3 * n + 2
  | .leastConnections => n + 2
  | _ => 1

namespace Lb

/-- The most steps a call has to go. -/
def Call.stepsLeft (algorithm : Algorithm) : Call → ℕ
  | .enter backends _ _ => algorithm.steps backends.length
  | .scan rest _ => rest.length + 1
  | .add _ rest _ => 3 * rest.length + 1
  | .load _ rest _ => 3 * rest.length + 3
  | .reload _ rest _ => 3 * rest.length + 2
  | .done _ => 0

/-- The calls of an algorithm. -/
def Call.Of (algorithm : Algorithm) : Call → Prop
  | .scan _ _ => algorithm = .leastConnections
  | .add _ _ _ => algorithm = .weightedRoundRobin
  | .load _ _ _ => algorithm = .weightedRoundRobin
  | .reload _ _ _ => algorithm = .weightedRoundRobin
  | _ => True

theorem algorithm_next (w : ℕ) (mem : Mem) (strategy : Strategy) (call : Call) :
    (call.next w mem strategy).1.algorithm = strategy.algorithm := by
  cases strategy <;> cases call <;> rfl

/-- A step of a call stays with the algorithm and brings the end nearer. -/
theorem next_nearer (w : ℕ) (mem : Mem) {strategy : Strategy} {call : Call} (h : call.Of strategy.algorithm)
    (hr : call.result = none) :
    (call.next w mem strategy).2.Of strategy.algorithm ∧
      (call.next w mem strategy).2.stepsLeft strategy.algorithm < call.stepsLeft strategy.algorithm := by
  cases call with
  | enter backends clientAddr rng =>
    cases strategy with
    | leastConnections =>
      simp only [Call.next, Call.nextLeast]
      split
      · exact ⟨trivial, Nat.succ_pos _⟩
      · refine ⟨rfl, ?_⟩
        simp [Call.stepsLeft, Algorithm.steps, Strategy.algorithm]
    | weightedRoundRobin s =>
      simp only [Call.next, Call.nextWeighted]
      split
      · exact ⟨trivial, Nat.succ_pos _⟩
      · exact ⟨rfl, Nat.lt_succ_self _⟩
    | _ => exact ⟨trivial, Nat.zero_lt_one⟩
  | scan rest least =>
    obtain rfl : strategy = .leastConnections := by
      cases strategy <;> first | rfl | cases h
    cases rest with
    | nil => exact ⟨trivial, Nat.zero_lt_one⟩
    | cons entry rest => exact ⟨rfl, Nat.lt_succ_self _⟩
  | add i rest l =>
    cases strategy with
    | weightedRoundRobin s =>
      cases rest with
      | nil =>
        simp only [Call.next, Call.nextWeighted]
        split <;> exact ⟨trivial, Nat.zero_lt_one⟩
      | cons b rest =>
        simp only [Call.next, Call.nextWeighted]
        split
        · exact ⟨trivial, Nat.succ_pos _⟩
        · refine ⟨rfl, ?_⟩
          simp only [Call.stepsLeft, List.length_cons]
          omega
    | _ => cases h
  | load i rest l =>
    cases strategy with
    | weightedRoundRobin s =>
      simp only [Call.next, Call.nextWeighted]
      split <;> refine ⟨rfl, ?_⟩ <;> simp only [Call.stepsLeft] <;> omega
    | _ => cases h
  | reload i rest l =>
    cases strategy with
    | weightedRoundRobin s => exact ⟨rfl, Nat.lt_succ_self _⟩
    | _ => cases h
  | done result => cases hr

end Lb

/-! ## Requests -/

namespace Proxy

/-- The most steps a request has to go to its exchange or to its end, where the list has at most `n` backends. -/
def Handling.stepsLeft (algorithm : Algorithm) (n : ℕ) : Handling → ℕ
  | .start _ _ => algorithm.steps n + 4
  | .selecting _ _ call => call.stepsLeft algorithm + 3
  | .guarding _ _ _ => 1
  | .awaiting _ _ _ => 0
  | .recording none _ => 2
  | .recording (some _) _ => 3
  | .observing none _ => 1
  | .observing (some _) _ => 2
  | .leaving _ _ => 1
  | .ended _ => 0

/-- The request makes the calls of the algorithm. -/
def Handling.Of (algorithm : Algorithm) : Handling → Prop
  | .selecting _ _ call => call.Of algorithm
  | _ => True

/-- A step of the request's own. -/
def isGo : Input → Bool
  | .go _ => true
  | _ => false

theorem steps_mono (algorithm : Algorithm) {m n : ℕ} (h : m ≤ n) : algorithm.steps m ≤ algorithm.steps n := by
  cases algorithm <;> simp only [Algorithm.steps] <;> omega

theorem chosen_of (parseUri : Text → Option Uri) (algorithm : Algorithm) (n : ℕ) (req : Request)
    (healthy : List Backend) (result : Except Lb.Panic (Option ℕ)) : (chosen parseUri req healthy result).Of algorithm ∧
      (chosen parseUri req healthy result).stepsLeft algorithm n ≤ 2 := by
  rcases chosen_cases parseUri req healthy result with ⟨message, h⟩ | h | h | ⟨b, -, uri, headers, h⟩ <;> rw [h] <;>
    exact ⟨trivial, by simp [Handling.stepsLeft]⟩

/-- A step of a request stays with the algorithm. -/
theorem Moved.of {w : ℕ} {parseUri : Text → Option Uri} {s s' : Proxy} {t t' : Handling} {i : Input}
    (h : Moved w parseUri s t i s' t') (ht : t.Of s.strategy.algorithm) :
    s'.strategy.algorithm = s.strategy.algorithm ∧ t'.Of s.strategy.algorithm := by
  cases h with
  | stay t hi => exact ⟨rfl, ht⟩
  | select req healthy hr elapsed => exact ⟨algorithm_next .., (next_nearer w _ ht hr).1⟩
  | choose req healthy hr elapsed => exact ⟨rfl, (chosen_of parseUri _ 0 req healthy _).1⟩
  | _ => exact ⟨rfl, trivial⟩

/-- No input takes a request away from its exchange or its end, and each of its own steps brings it nearer. -/
theorem step_nearer (w : ℕ) (parseUri : Text → Option Uri) {s : Proxy} {t : Handling} {n : ℕ}
    (hlist : s.pool.healthyBackends.length ≤ n) (h : t.Of s.strategy.algorithm)
    (hleft : t.stepsLeft s.strategy.algorithm n ≠ 0) (i : Input) :
    (handleRequest w parseUri s t i).2.stepsLeft s.strategy.algorithm n + (isGo i).toNat ≤
      t.stepsLeft s.strategy.algorithm n := by
  cases t with
  | start req rng =>
    cases i with
    | go elapsed =>
      have hsteps := steps_mono s.strategy.algorithm hlist
      simp only [handleRequest, Handling.stepsLeft, Call.stepsLeft, isGo, Bool.toNat_true]
      omega
    | cancel => exact Nat.zero_le _
    | _ => exact Nat.le_refl _
  | selecting req healthy call =>
    cases i with
    | go elapsed =>
      rcases hr : call.result with _ | result
      · have hnearer := (next_nearer w s.pool.mem h hr).2
        simp only [handleRequest, hr, Handling.stepsLeft, isGo, Bool.toNat_true]
        omega
      · have hchosen := (chosen_of parseUri s.strategy.algorithm n req healthy result).2
        have hleft : (Handling.selecting req healthy call).stepsLeft s.strategy.algorithm n =
            call.stepsLeft s.strategy.algorithm + 3 := rfl
        simp only [handleRequest, hr, isGo, Bool.toNat_true]
        omega
    | _ => exact Nat.le_refl _
  | guarding b uri headers => cases i <;> exact Nat.le_refl _
  | awaiting b uri headers => exact absurd rfl hleft
  | recording guard resp =>
    cases guard <;> cases i <;> exact Nat.le_refl _
  | observing guard resp =>
    cases guard <;> cases i <;> exact Nat.le_refl _
  | leaving b exit => cases i <;> exact Nat.le_refl _
  | ended exit => exact absurd rfl hleft

/-! ## The task -/

/-- A step of the task's own. -/
def isTask : Sched TaskInput (Request × RandomRange) Input → Bool
  | .outside .step => true
  | _ => false

/-- The most steps that the other check takes, if it is to come. -/
def afterwards (n : ℕ) : Bool → ℕ
  | false => n + 4
  | true => 0

/-- The most steps the task has to go until it waits again: a check looks its flag up, and a mark stores, loads
`n` flags, replaces the list and sets the gauge. -/
def stepsLeft (n : ℕ) : Health.Stage → ℕ
  | .waiting => 0
  | .checking _ _ flag => n + 4 + afterwards n flag
  | .marking _ _ flag (.store _ _) => n + 3 + afterwards n flag
  | .marking _ _ flag (.collect _ rest) => rest.length + 2 + afterwards n flag
  | .gauging _ _ flag => 1 + afterwards n flag

theorem stepsLeft_afterCheck (n : ℕ) (addr : SocketAddr) (status : BackendStatus) (flag : Bool) :
    stepsLeft n (.afterCheck addr status flag) = afterwards n flag := by
  cases flag <;> rfl

theorem waiting_of_zero {n : ℕ} {stage : Health.Stage} (h : stepsLeft n stage = 0) : stage = .waiting := by
  cases stage with
  | waiting => rfl
  | checking addr status flag =>
    simp only [stepsLeft] at h
    omega
  | marking addr status flag call =>
    cases call <;> simp only [stepsLeft] at h <;> omega
  | gauging addr status flag =>
    simp only [stepsLeft] at h
    omega

/-- The pool keeps its backends, and the healthy list, also the one that is being collected, is a part of them. -/
structure Kept (bs : List Backend) (algorithm : Algorithm) (s : Service) : Prop where
  algorithm : s.proxy.strategy.algorithm = algorithm
  backends : s.proxy.pool.backends = bs
  list : s.proxy.pool.healthyBackends.Sublist bs
  collected : ∀ addr status flag healthy rest, s.task.stage = .marking addr status flag (.collect healthy rest) →
    (healthy ++ rest).Sublist bs

section

variable {n : ℕ} {bs : List Backend} {algorithm : Algorithm} {config : HealthCheckConfig}

theorem kept_check {s : Service} (h : Kept bs algorithm s) (i : TaskInput) : Kept bs algorithm (s.check config i) := by
  obtain ⟨halgorithm, hbackends, hlist, hcollected⟩ := h
  obtain ⟨proxy, statusMap, metrics, stage, joined⟩ := s
  have hno : ∀ stage : Health.Stage, (∀ addr status flag call, stage ≠ .marking addr status flag call) →
      ∀ addr status flag healthy rest, stage = .marking addr status flag (.collect healthy rest) →
        (healthy ++ rest).Sublist bs := fun stage hstage _ _ _ _ _ h => absurd h (hstage _ _ _ _)
  cases i with
  | joined index result =>
    cases stage with
    | waiting =>
      simp only [Service.check, taskStep]
      rcases proxy.pool.allBackends[index]? with _ | b
      · exact ⟨halgorithm, hbackends, hlist, hcollected⟩
      · exact ⟨halgorithm, hbackends, hlist, hno _ fun _ _ _ _ h => by cases h⟩
    | _ => exact ⟨halgorithm, hbackends, hlist, hcollected⟩
  | prune =>
    cases stage with
    | waiting => exact ⟨halgorithm, hbackends, hlist, hno _ fun _ _ _ _ h => by cases h⟩
    | _ => exact ⟨halgorithm, hbackends, hlist, hcollected⟩
  | step =>
    cases stage with
    | waiting => exact ⟨halgorithm, hbackends, hlist, hcollected⟩
    | checking addr status flag =>
      simp only [Service.check, taskStep]
      split
      · split
        · exact ⟨halgorithm, hbackends, hlist, fun _ _ _ _ _ h => by cases h⟩
        · exact ⟨halgorithm, hbackends, hlist, hno _ fun _ _ _ _ h => by cases h⟩
      · exact ⟨halgorithm, hbackends, hlist, hno _ fun _ _ _ _ h => by cases flag <;> cases h⟩
    | marking addr status flag call =>
      cases call with
      | store b flag' =>
        refine ⟨halgorithm, hbackends, hlist, fun _ _ _ healthy rest h => ?_⟩
        cases h
        exact hbackends ▸ .refl _
      | collect healthy rest =>
        have hpart := hcollected addr status flag healthy rest rfl
        cases rest with
        | nil =>
          rw [List.append_nil] at hpart
          exact ⟨halgorithm, hbackends, hpart, fun _ _ _ _ _ h => by cases h⟩
        | cons b rest =>
          refine ⟨halgorithm, hbackends, hlist, fun _ _ _ healthy' rest' h => ?_⟩
          cases h
          split
          · rw [List.append_assoc]
            exact hpart
          · exact ((List.sublist_cons_self b rest).append_left healthy).trans hpart
    | gauging addr status flag =>
      exact ⟨halgorithm, hbackends, hlist, hno _ fun _ _ _ _ h => by cases flag <;> cases h⟩

/-- Until it waits, no input takes the task back or brings it another result, and each of its own steps brings it
nearer. -/
theorem check_nearer {s : Service} (hbackends : s.proxy.pool.backends.length = n) (hleft : stepsLeft n s.task.stage ≠ 0)
    (i : TaskInput) :
    stepsLeft n (s.check config i).task.stage + (isTask (.outside i)).toNat ≤ stepsLeft n s.task.stage ∧
      (s.check config i).task.joined = s.task.joined := by
  obtain ⟨proxy, statusMap, metrics, stage, joined⟩ := s
  cases i with
  | joined index result =>
    cases stage with
    | waiting => exact absurd rfl hleft
    | _ => exact ⟨Nat.le_refl _, rfl⟩
  | prune =>
    cases stage with
    | waiting => exact absurd rfl hleft
    | _ => exact ⟨Nat.le_refl _, rfl⟩
  | step =>
    cases stage with
    | waiting => exact absurd rfl hleft
    | checking addr status flag =>
      simp only [Service.check, taskStep]
      split
      · split
        · refine ⟨?_, rfl⟩
          show n + 3 + afterwards n flag + 1 ≤ n + 4 + afterwards n flag
          omega
        · refine ⟨?_, rfl⟩
          show 1 + afterwards n flag + 1 ≤ n + 4 + afterwards n flag
          omega
      · refine ⟨?_, rfl⟩
        have hafter := stepsLeft_afterCheck n addr status flag
        show stepsLeft n (.afterCheck addr status flag) + 1 ≤ n + 4 + afterwards n flag
        omega
    | marking addr status flag call =>
      refine ⟨?_, rfl⟩
      cases call with
      | store b flag' =>
        show proxy.pool.backends.length + 2 + afterwards n flag + 1 ≤ n + 3 + afterwards n flag
        rw [show proxy.pool.backends.length = n from hbackends]
        omega
      | collect healthy rest =>
        cases rest with
        | nil =>
          show 1 + afterwards n flag + 1 ≤ 0 + 2 + afterwards n flag
          omega
        | cons b rest =>
          show rest.length + 2 + afterwards n flag + 1 ≤ (b :: rest).length + 2 + afterwards n flag
          rw [List.length_cons]
          omega
    | gauging addr status flag =>
      refine ⟨?_, rfl⟩
      have hafter := stepsLeft_afterCheck n addr status flag
      show stepsLeft n (.afterCheck addr status flag) + 1 ≤ 1 + afterwards n flag
      omega

end

/-! ## Every interleaving -/

theorem modular_kept (w : ℕ) (parseUri : Text → Option Uri) (config : HealthCheckConfig) (bs : List Backend)
    (algorithm : Algorithm) :
    Modular (Service.check config) (fun r : Request × RandomRange => Handling.start r.1 r.2) (Service.handle w parseUri)
      (Kept bs algorithm) (fun _ t => t.Of algorithm) fun _ _ _ => True where
  env _ i h := ⟨kept_check h i, fun _ ht => ht⟩
  spawn _ _ _ := trivial
  self s t i h ht _ := by
    obtain ⟨halgorithm, hbackends, hlist, hcollected⟩ := h
    subst halgorithm
    have hmoved := handleRequest_moved w parseUri s.proxy t i
    obtain ⟨hsame, ht'⟩ := hmoved.of ht
    have hhealth := hmoved.sameHealth
    refine ⟨⟨hsame, hhealth.backends.trans hbackends, ?_, hcollected⟩, ht'⟩
    rw [show (s.handle w parseUri t i).1.proxy.pool.healthyBackends = s.proxy.pool.healthyBackends from hhealth.cache]
    exact hlist
  other _ _ _ _ _ _ hu _ := hu

theorem kept_start {p : Proxy} (hp : p.pool.Synced) (metrics : GunghoMetrics) :
    Kept p.pool.backends p.strategy.algorithm (.start p metrics) := by
  refine ⟨rfl, rfl, ?_, fun _ _ _ _ _ h => by cases h⟩
  show p.pool.healthyCache.Sublist p.pool.backends
  rw [hp]
  exact List.filter_sublist

theorem kept_run (w : ℕ) (parseUri : Text → Option Uri) (config : HealthCheckConfig) {p : Proxy} (hp : p.pool.Synced)
    (metrics : GunghoMetrics) (choices : List (Sched TaskInput (Request × RandomRange) Input)) :
    Holds (Kept p.pool.backends p.strategy.algorithm) (fun _ t => t.Of p.strategy.algorithm)
      (run (tending w parseUri config) ⟨.start p metrics, []⟩ choices).2 :=
  holds_run (modular_kept w parseUri config _ _) choices ⟨kept_start hp metrics, by simp⟩ (along_free choices _)

/-- Where a request has no step of its own to go it waits for its exchange or has ended. -/
theorem rests {algorithm : Algorithm} {n : ℕ} {t : Handling} (h : t.stepsLeft algorithm n = 0) :
    (∃ b uri headers, t = .awaiting b uri headers) ∨ ∃ exit, t = .ended exit := by
  cases t with
  | awaiting b uri headers => exact .inl ⟨b, uri, headers, rfl⟩
  | ended exit => exact .inr ⟨exit, rfl⟩
  | recording guard resp => cases guard <;> cases h
  | observing guard resp => cases guard <;> cases h
  | _ => cases h

/-- In every interleaving the steps that a request executes up to its exchange with a backend or to its end are no more
than it had left: by the time it has executed as many, it has come there. -/
theorem request_steps_bounded (w : ℕ) (parseUri : Text → Option Uri) (config : HealthCheckConfig) (p : Proxy)
    (hp : p.pool.Synced) (metrics : GunghoMetrics) (before after : List (Sched TaskInput (Request × RandomRange) Input))
    (k : ℕ) (t : Handling) (ht : (run (tending w parseUri config) ⟨.start p metrics, []⟩ before).2.threads[k]? = some t)
    (hsteps : t.stepsLeft p.strategy.algorithm p.pool.backends.length ≤ after.countP (takes isGo k)) :
    ∃ pre post, after = pre ++ post ∧
      ∃ u, (run (tending w parseUri config) ⟨.start p metrics, []⟩ (before ++ pre)).2.threads[k]? = some u ∧
        ((∃ b uri headers, u = .awaiting b uri headers) ∨ ∃ exit, u = .ended exit) := by
  have hfall : ∀ (s : Service) (t : Handling) (i : Input), Kept p.pool.backends p.strategy.algorithm s →
      t.Of p.strategy.algorithm → t.stepsLeft p.strategy.algorithm p.pool.backends.length ≠ 0 →
      (s.handle w parseUri t i).2.stepsLeft p.strategy.algorithm p.pool.backends.length + (isGo i).toNat ≤
        t.stepsLeft p.strategy.algorithm p.pool.backends.length := by
    rintro s t i ⟨halgorithm, -, hlist, -⟩ ht hleft
    rw [← halgorithm] at ht hleft ⊢
    exact step_nearer w parseUri hlist.length_le ht hleft i
  obtain ⟨pre, post, rfl, u, hu, hzero⟩ := comes_down_at (modular_kept w parseUri config _ _) hfall after
    (kept_run w parseUri config hp metrics before) ht hsteps
  refine ⟨pre, post, rfl, u, ?_, rests hzero⟩
  rw [run_append]
  exact hu

/-- Three requests, and a result that the task has in hand. -/
def crowd : List (Sched TaskInput (Request × RandomRange) Input) :=
  let req : Request × RandomRange := (⟨.v4 ⟨192, 168, 1, 1⟩ 1234, none, ⟨[]⟩⟩, .lowest)
  [.spawn req, .spawn req, .outside (.joined 0 .unhealthy), .spawn req]

/-- The third request, the task and the first request in turns. -/
def turns : List (Sched TaskInput (Request × RandomRange) Input) :=
  (List.replicate 10 [.step 2 (.go 0), .outside .step, .step 0 (.go 0)]).flatten

theorem request_steps_bounded_crowd :
    ∃ pre post, turns = pre ++ post ∧
      ∃ u, (run (tending 64 Uri.accept {}) ⟨.start oneBackend .new, []⟩ (crowd ++ pre)).2.threads[2]? = some u ∧
        ((∃ b uri headers, u = .awaiting b uri headers) ∨ ∃ exit, u = .ended exit) :=
  request_steps_bounded 64 Uri.accept {} oneBackend (BackendPool.new_synced ..) .new crowd turns 2 _ rfl (by decide)

/-- In every interleaving the steps that the task executes until it is done with the result in hand are no more than it
had left: by the time it has executed as many, it has been back at `join_next` with no further result joined, and the
pool, the counters and the gauges were those of the sequential checker after all results joined. -/
theorem task_steps_bounded (w : ℕ) (parseUri : Text → Option Uri) (config : HealthCheckConfig) (p : Proxy)
    (hp : p.pool.Synced) (metrics : GunghoMetrics) (before after : List (Sched TaskInput (Request × RandomRange) Input))
    (hsteps : stepsLeft p.pool.backends.length
      (run (tending w parseUri config) ⟨.start p metrics, []⟩ before).2.shared.task.stage ≤
        after.countP isTask) :
    ∃ pre post, after = pre ++ post ∧
      let s := (run (tending w parseUri config) ⟨.start p metrics, []⟩ (before ++ pre)).2.shared
      s.task.stage = .waiting ∧
        s.task.joined = (run (tending w parseUri config) ⟨.start p metrics, []⟩ before).2.shared.task.joined ∧
        Mirrors (s.task.checker s.proxy.pool)
          ((HealthChecker.start p.pool metrics).afterResults config s.task.joined) := by
  let n := p.pool.backends.length
  let joined := (run (tending w parseUri config) ⟨.start p metrics, []⟩ before).2.shared.task.joined
  let There : Threads Service Handling → Prop := fun s =>
    Holds (Kept p.pool.backends p.strategy.algorithm) (fun _ t => t.Of p.strategy.algorithm) s ∧
      s.shared.task.joined = joined
  let rank : Threads Service Handling → ℕ := fun s => stepsLeft n s.shared.task.stage
  have hnearer : ∀ (s : Threads Service Handling) (c : Sched TaskInput (Request × RandomRange) Input), There s →
      rank s ≠ 0 → rank (tending w parseUri config s c).2 + (isTask c).toNat ≤ rank s ∧
        (tending w parseUri config s c).2.shared.task.joined = s.shared.task.joined := by
    rintro s c ⟨h, -⟩ hrank
    cases c with
    | outside i => exact check_nearer (congrArg List.length h.1.backends) hrank i
    | spawn r => exact ⟨Nat.le_refl _, rfl⟩
    | step k i =>
      -- a request leaves the task alone
      have htask : (tending w parseUri config s (.step k i)).2.shared.task = s.shared.task := by
        simp only [tending, interleave]
        rcases s.threads[k]? with _ | t <;> rfl
      simp only [rank, htask, isTask, Bool.toNat_false, Nat.add_zero, Nat.le_refl, and_self]
  have hstep : ∀ (s : Threads Service Handling) (c : Sched TaskInput (Request × RandomRange) Input), There s →
      StepCond (fun _ _ _ => True) s c → rank s ≠ 0 → There (tending w parseUri config s c).2 := fun s c h hc hrank =>
    ⟨holds_interleave (modular_kept w parseUri config _ _) h.1 hc, (hnearer s c h hrank).2.trans h.2⟩
  obtain ⟨pre, post, rfl, ⟨-, hjoined⟩, hzero⟩ := comes_down There hstep
    (fun s c h _ hrank => (hnearer s c h hrank).1) after _
    ⟨kept_run w parseUri config hp metrics before, rfl⟩ (along_free after _) hsteps
  refine ⟨pre, post, rfl, ?_⟩
  intro s
  have hs : s = (run (tending w parseUri config)
      (run (tending w parseUri config) ⟨.start p metrics, []⟩ before).2 pre).2.shared := by
    simp only [s, run_append]
  have hstage : s.task.stage = .waiting := hs ▸ waiting_of_zero hzero
  exact ⟨hstage, hs ▸ hjoined, (tended_run w parseUri config p metrics (before ++ pre)).mirrors hstage⟩

theorem task_steps_bounded_crowd :
    ∃ pre post, turns = pre ++ post ∧
      let s := (run (tending 64 Uri.accept {}) ⟨.start oneBackend .new, []⟩ (crowd ++ pre)).2.shared
      s.task.stage = .waiting ∧
        s.task.joined = (run (tending 64 Uri.accept {}) ⟨.start oneBackend .new, []⟩ crowd).2.shared.task.joined ∧
        Mirrors (s.task.checker s.proxy.pool)
          ((HealthChecker.start oneBackend.pool .new).afterResults {} s.task.joined) :=
  task_steps_bounded 64 Uri.accept {} oneBackend (BackendPool.new_synced ..) .new crowd turns (by decide)

end Proxy

end Gungho
