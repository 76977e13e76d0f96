/-
When a verdict takes effect. Once as many results in a row as the threshold asks for are joined and the
last one is applied, the verdict on the address stands until the opposite run of results: through every
interleaving no later snapshot has a backend that failed, and none lacks one that recovered. The backend is
the first of its address, as every backend is where addresses are distinct.
-/
import Gungho.Health.Flapping
import Gungho.Proxy.Drain
import Gungho.Proxy.Routing

namespace Gungho.Proxy

open Gungho.Lib Gungho.Lb Gungho.Net Gungho.Pool Gungho.Health

/-! ## A verdict that stands -/

/-- Enough results in a row for the flag are joined, and the last one is applied. -/
def Decided (config : HealthCheckConfig) (b : Backend) (v : Bool) (t : Task) : Prop :=
  t.stage = .waiting ∧ needed config v ≤ trail (resultFor v) (resultsFor b.addr t.joined)

/-- The results in a row against the flag are not enough. -/
def Upheld (config : HealthCheckConfig) (b : Backend) (v : Bool) (t : Task) : Prop :=
  trail (resultFor (!v)) (resultsFor b.addr t.joined) < needed config (!v)

instance (config : HealthCheckConfig) (b : Backend) (v : Bool) (t : Task) : Decidable (Upheld config b v t) :=
  inferInstanceAs (Decidable (_ < _))

/-- With and without the result in hand the verdict is the flag. -/
structure Settled (config : HealthCheckConfig) (b : Backend) (v : Bool) (t : Task) : Prop where
  now : verdict config t.joined b = v
  before : t.stage ≠ .waiting → verdict config t.joined.tail b = v

section

variable {config : HealthCheckConfig} {bs : List Backend} {b : Backend} {v : Bool}

theorem verdict_eq_switch (hpos : ∀ v, 1 ≤ needed config v) (joined : List (SocketAddr × HealthCheckResult)) :
    verdict config joined b = switch (needed config) ((resultsFor b.addr joined).map (·.flag)) := by
  rw [verdict, automaton_eq_switch hpos]
  cases switch (needed config) ((resultsFor b.addr joined).map (·.flag)) <;> rfl

theorem trail_flags (v : Bool) (recent : List HealthCheckResult) :
    trail v (recent.map (·.flag)) = trail (resultFor v) recent := by
  rw [← trail_map flag_injective, flag_resultFor]

theorem settled_of_decided (hpos : ∀ v, 1 ≤ needed config v) {t : Task} (h : Decided config b v t) :
    Settled config b v t := by
  obtain ⟨hwaiting, htrail⟩ := h
  refine ⟨?_, fun hstage => absurd hwaiting hstage⟩
  rw [verdict_eq_switch hpos]
  rw [← trail_flags] at htrail
  exact switch_of_trail hpos htrail

/-- One more result, for whichever address, leaves the verdict as long as it is upheld. -/
theorem verdict_cons (hpos : ∀ v, 1 ≤ needed config v) {joined : List (SocketAddr × HealthCheckResult)}
    (h : verdict config joined b = v) (r : SocketAddr × HealthCheckResult)
    (hupheld : trail (resultFor (!v)) (resultsFor b.addr (r :: joined)) < needed config (!v)) :
    verdict config (r :: joined) b = v := by
  obtain ⟨addr, result⟩ := r
  rw [verdict_eq_switch hpos] at h ⊢
  by_cases haddr : addr = b.addr
  · subst haddr
    rw [resultsFor_self] at hupheld ⊢
    rw [← trail_flags, List.map_cons] at hupheld
    rw [List.map_cons]
    exact switch_stays h hupheld
  · rw [resultsFor_ne haddr]
    exact h

/-- A step of the task goes on with the result in hand, or joins one while it waits. -/
theorem joined_step (config : HealthCheckConfig) (pool : BackendPool) (t : Task) (i : TaskInput) :
    ((taskStep config pool t i).2.joined = t.joined ∧
        ((taskStep config pool t i).2.stage ≠ .waiting → t.stage ≠ .waiting)) ∨
      ∃ r, (taskStep config pool t i).2.joined = r :: t.joined := by
  obtain ⟨statusMap, metrics, stage, joined⟩ := t
  cases i with
  | joined index result =>
    cases stage with
    | waiting =>
      simp only [taskStep]
      rcases pool.allBackends[index]? with _ | c
      · exact .inl ⟨rfl, id⟩
      · exact .inr ⟨_, rfl⟩
    | _ => exact .inl ⟨rfl, fun _ h => by cases h⟩
  | prune => cases stage <;> exact .inl ⟨rfl, id⟩
  | step =>
    cases stage with
    | waiting => exact .inl ⟨rfl, id⟩
    | checking addr status flag =>
      simp only [taskStep]
      split
      · split <;> exact .inl ⟨rfl, fun _ h => by cases h⟩
      · exact .inl ⟨rfl, fun _ h => by cases h⟩
    | marking addr status flag call => exact .inl ⟨rfl, fun _ h => by cases h⟩
    | gauging addr status flag => exact .inl ⟨rfl, fun _ h => by cases h⟩

theorem settled_step (hpos : ∀ v, 1 ≤ needed config v) (pool : BackendPool) {t : Task} (h : Settled config b v t)
    (i : TaskInput) (hupheld : Upheld config b v (taskStep config pool t i).2) :
    Settled config b v (taskStep config pool t i).2 := by
  rcases joined_step config pool t i with ⟨hjoined, hstage⟩ | ⟨r, hjoined⟩
  · refine ⟨hjoined ▸ h.now, fun hs => ?_⟩
    rw [hjoined]
    exact h.before (hstage hs)
  · unfold Upheld at hupheld
    rw [hjoined] at hupheld
    constructor
    · rw [hjoined]
      exact verdict_cons hpos h.now r hupheld
    · rintro -
      rw [hjoined]
      exact h.now

/-- The healthy list has the backend exactly if the settled flag is `true`. -/
theorem mem_healthyBackends_of_settled (hpos : ∀ v, 1 ≤ threshold config v) {start : HealthChecker}
    (hs : Watched config bs [] start) {s : Service} (ht : Tended config bs start s)
    (h : Settled config b v s.task) (hb : IsFirst bs b) : b ∈ s.proxy.pool.healthyBackends ↔ v = true := by
  rcases ht.current hpos hs with hlist | ⟨hstage, hlist⟩
  · rw [hlist, List.mem_filter, inRotation_first hb, h.now]
    exact and_iff_right hb.mem
  · rw [hlist, List.mem_filter, inRotation_first hb, h.before hstage]
    exact and_iff_right hb.mem

theorem outOfRotation_of_settled (hpos : ∀ v, 1 ≤ threshold config v) {start : HealthChecker}
    (hs : Watched config bs [] start) {s : Service} (ht : Tended config bs start s)
    (h : Settled config b false s.task) (hb : IsFirst bs b) : OutOfRotation b s.proxy := by
  rintro c hc hid
  have hmem : c ∈ s.proxy.pool.backends := by
    rw [ht.backends]
    rcases ht.current hpos hs with hlist | ⟨-, hlist⟩ <;> exact (List.mem_filter.1 (hlist ▸ hc)).1
  have hbmem : b ∈ s.proxy.pool.backends := ht.backends ▸ hb.mem
  have hcb : c = b := s.proxy.pool.eq_of_id_eq hmem hbmem hid
  rw [hcb] at hc
  exact Bool.false_ne_true ((mem_healthyBackends_of_settled hpos hs ht h hb).1 hc)

end

/-! ## While the verdict stands -/

/-- The request has a snapshot without the backend. -/
def Handling.passesOver (b : Backend) : Handling → Bool
  | .selecting _ healthy _ => healthy.all (·.id ≠ b.id)
  | _ => false

section

variable {w : ℕ} {parseUri : Text → Option Uri} {config : HealthCheckConfig} {b : Backend} {v : Bool}

/-- While the list has the backend a step takes no snapshot without it. -/
theorem Moved.passesOver {s s' : Proxy} {t t' : Handling} {i : Input} (hmoved : Moved w parseUri s t i s' t')
    (hin : b ∈ s.pool.healthyBackends) (h : t'.passesOver b = true) : t.passesOver b = true := by
  cases hmoved with
  | stay => exact h
  | snapshot req rng elapsed => exact absurd rfl (of_decide_eq_true (List.all_eq_true.1 h b hin))
  | select req healthy hr elapsed => exact h
  | @choose req healthy call result hr elapsed =>
    rcases chosen_cases parseUri req healthy result with ⟨message, hc⟩ | hc | hc | ⟨c, -, uri, headers, hc⟩ <;>
      rw [hc] at h <;> cases h
  | _ => cases h

/-- From the moment at which a verdict is decided, and on while it is upheld, the verdict stays settled: what the
requests' steps keep as long as it is so, the run keeps. -/
theorem marked_before_decided (hu : 1 ≤ config.unhealthyThreshold) (hh : 1 ≤ config.healthyThreshold) {p : Proxy}
    (metrics : GunghoMetrics) (D : Proxy → Prop) (M : Handling → Bool)
    (hD : ∀ s : Service, Tended config p.pool.backends (.start p.pool metrics) s →
      Settled config b v s.task → D s.proxy)
    (hspawn : ∀ req rng, M (.start req rng) = false)
    (hstep : ∀ s t i, D s → M (handleRequest w parseUri s t i).2 = true → M t = true)
    (before after : List (Sched TaskInput (Request × RandomRange) Input))
    (hdecided : Decided config b v (run (tending w parseUri config) ⟨.start p metrics, []⟩ before).2.shared.task)
    (hstay : Along (tending w parseUri config)
      (fun s c => Upheld config b v (tending w parseUri config s c).2.shared.task)
      (run (tending w parseUri config) ⟨.start p metrics, []⟩ before).2 after) {k : ℕ} {u : Handling}
    (hk : (run (tending w parseUri config) ⟨.start p metrics, []⟩ (before ++ after)).2.threads[k]? = some u)
    (hm : M u = true) :
    ∃ t, (run (tending w parseUri config) ⟨.start p metrics, []⟩ before).2.threads[k]? = some t ∧ M t = true := by
  have hpos := threshold_pos hu hh
  have hneed : ∀ v, 1 ≤ needed config v := fun v => one_le_toNat (hpos v)
  let I : Threads Service Handling → Prop := fun s =>
    Tended config p.pool.backends (.start p.pool metrics) s.shared ∧ Settled config b v s.shared.task
  have hkeep : ∀ s c, I s → Upheld config b v (tending w parseUri config s c).2.shared.task →
      I (tending w parseUri config s c).2 := by
    rintro s c ⟨ht, h⟩ hupheld
    unfold tending at hupheld ⊢
    rcases interleave_cases s c with ⟨i, rfl, hs⟩ | ⟨r, rfl, hs⟩ | ⟨k, i, rfl, -, hs⟩ | ⟨_, t, _, i, rfl, -, hs⟩ <;>
      rw [hs] at hupheld ⊢
    · exact ⟨tended_check ht i, settled_step hneed _ h i hupheld⟩
    · exact ⟨ht, h⟩
    · exact ⟨ht, h⟩
    · exact ⟨tended_handle ht t i, h⟩
  have hstart : I (run (tending w parseUri config) ⟨.start p metrics, []⟩ before).2 :=
    ⟨tended_run w parseUri config p metrics before, settled_of_decided hneed hdecided⟩
  have halong := along_of_inv (D := fun s _ => D s.shared.proxy) I hkeep (fun s _ hI _ => hD s.shared hI.1 hI.2) after _
    hstart hstay
  rw [run_append] at hk
  exact marked_before (fun s : Service => D s.proxy) (fun t : Handling => M t = true)
    (fun r : Request × RandomRange => by rw [hspawn]; exact Bool.false_ne_true)
    (fun s t i hD hm => hstep s.proxy t i hD hm) after halong hk hm

end

/-! ## The results -/

/-- From the moment on at which `unhealthyThreshold` checks in a row have failed, and until `healthyThreshold` in a row
succeed, no request reaches the first backend of the address but those that could at that moment. -/
theorem fails_over (w : ℕ) (parseUri : Text → Option Uri) (config : HealthCheckConfig)
    (hu : 1 ≤ config.unhealthyThreshold)
    (hh : 1 ≤ config.healthyThreshold) (p : Proxy) (hf : p.pool.Fresh) (metrics : GunghoMetrics) (b : Backend)
    (hb : IsFirst p.pool.allBackends b) (before after : List (Sched TaskInput (Request × RandomRange) Input))
    (hfailed : Decided config b false (run (tending w parseUri config) ⟨.start p metrics, []⟩ before).2.shared.task)
    (hstay : Along (tending w parseUri config)
      (fun s c => Upheld config b false (tending w parseUri config s c).2.shared.task)
      (run (tending w parseUri config) ⟨.start p metrics, []⟩ before).2 after) :
    ∀ (k : ℕ) (u : Handling),
      (run (tending w parseUri config) ⟨.start p metrics, []⟩ (before ++ after)).2.threads[k]? = some u →
      u.mayReach b = true →
      ∃ t, (run (tending w parseUri config) ⟨.start p metrics, []⟩ before).2.threads[k]? = some t ∧
        t.mayReach b = true := by
  intro k u hk hm
  have hs := watched_start (threshold_pos hu hh) hf metrics
  exact marked_before_decided hu hh metrics (OutOfRotation b) (Handling.mayReach b)
    (fun s ht h => outOfRotation_of_settled (threshold_pos hu hh) hs ht h hb) (fun _ _ => rfl)
    (fun s t i => (handleRequest_moved w parseUri s t i).mayReach) before after hfailed hstay hk hm

/-- The request has its snapshot when the only backend fails its check, and makes its choice afterwards. -/
theorem fails_over_one :
    let config : HealthCheckConfig := { unhealthyThreshold := 1 }
    let b : Backend := ⟨0, .v4 ⟨10, 0, 0, 1⟩ 80, 1⟩
    let req : Request × RandomRange := (⟨.v4 ⟨192, 168, 1, 1⟩ 1234, none, ⟨[]⟩⟩, .lowest)
    let before := [.spawn req, .step 0 (.go 0)] ++ oneFails
    ∃ t, (run (tending 64 Uri.accept config) ⟨.start oneBackend .new, []⟩ before).2.threads[0]? = some t ∧
      t.mayReach b = true := by
  intro config b req before
  exact fails_over 64 Uri.accept config (by decide) (by decide) oneBackend ⟨by decide, rfl⟩ .new b (by decide) before
    [.step 0 (.go 0)] ⟨rfl, by decide⟩ (by decide) 0 _ rfl (by decide)

/-- From the moment on at which `healthyThreshold` checks in a row have succeeded, and until `unhealthyThreshold` in a
row fail, every request that takes its snapshot finds the first backend of the address in it. -/
theorem recovers (w : ℕ) (parseUri : Text → Option Uri) (config : HealthCheckConfig)
    (hu : 1 ≤ config.unhealthyThreshold)
    (hh : 1 ≤ config.healthyThreshold) (p : Proxy) (hf : p.pool.Fresh) (metrics : GunghoMetrics) (b : Backend)
    (hb : IsFirst p.pool.allBackends b) (before after : List (Sched TaskInput (Request × RandomRange) Input))
    (hrecovered : Decided config b true (run (tending w parseUri config) ⟨.start p metrics, []⟩ before).2.shared.task)
    (hstay : Along (tending w parseUri config)
      (fun s c => Upheld config b true (tending w parseUri config s c).2.shared.task)
      (run (tending w parseUri config) ⟨.start p metrics, []⟩ before).2 after) :
    ∀ (k : ℕ) (u : Handling),
      (run (tending w parseUri config) ⟨.start p metrics, []⟩ (before ++ after)).2.threads[k]? = some u →
      u.passesOver b = true →
      ∃ t, (run (tending w parseUri config) ⟨.start p metrics, []⟩ before).2.threads[k]? = some t ∧
        t.passesOver b = true := by
  intro k u hk hm
  have hs := watched_start (threshold_pos hu hh) hf metrics
  exact marked_before_decided hu hh metrics (fun s => b ∈ s.pool.healthyBackends) (Handling.passesOver b)
    (fun s ht h => (mem_healthyBackends_of_settled (threshold_pos hu hh) hs ht h hb).2 rfl) (fun _ _ => rfl)
    (fun s t i => (handleRequest_moved w parseUri s t i).passesOver) before after hrecovered hstay hk hm

/-- The request has its snapshot while the only backend is out, and the backend comes back before it has chosen. -/
theorem recovers_one :
    let config : HealthCheckConfig := { unhealthyThreshold := 1, healthyThreshold := 1 }
    let b : Backend := ⟨0, .v4 ⟨10, 0, 0, 1⟩ 80, 1⟩
    let req : Request × RandomRange := (⟨.v4 ⟨192, 168, 1, 1⟩ 1234, none, ⟨[]⟩⟩, .lowest)
    let before := oneFails ++ [.spawn req, .step 0 (.go 0), .outside (.joined 0 .healthy)] ++
      List.replicate 7 (.outside .step)
    ∃ t, (run (tending 64 Uri.accept config) ⟨.start oneBackend .new, []⟩ before).2.threads[0]? = some t ∧
      t.passesOver b = true := by
  intro config b req before
  exact recovers 64 Uri.accept config (by decide) (by decide) oneBackend ⟨by decide, rfl⟩ .new b (by decide) before
    [.step 0 (.go 0)] ⟨rfl, by decide⟩ (by decide) 0 _ rfl (by decide)

end Gungho.Proxy
