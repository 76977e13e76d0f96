/-
The marks of a run of the checker, with the results between them: is a backend ever marked unhealthy
without a failed check, or marked healthy again without a successful one since? Both thresholds are
compared with both counters after every result, and a counter that was just reset is 0, so a
threshold of 0, which `Config::validate` accepts, is reached by a result of the other kind.
-/
import Gungho.Health.Automaton
import Gungho.Health.JoinErrors

namespace Gungho.Health

open Gungho.Lib Gungho.Net Gungho.Pool

/-! ## The journal of a run -/

inductive Entry where
  | result (r : HealthCheckResult)
  | marked (healthy : Bool)
  deriving DecidableEq, Repr

/-- The mark a threshold check makes, if it makes one. -/
def HealthChecker.marks (s : HealthChecker) (addr : SocketAddr) (reached healthy : Bool) : List Bool :=
  if reached && s.pool.getHealthByAddr addr == some (!healthy) then [healthy] else []

/-- What `applyResult` does, in order: it counts the result, then it may mark. -/
def journalResult (config : HealthCheckConfig) (s : HealthChecker) (r : SocketAddr × HealthCheckResult) :
    List (SocketAddr × Entry) :=
  let status := (s.status r.1).update r.2
  let counted := s.count r.1 status
  let failed := counted.transition r.1 (status.consecutiveFailures ≥ config.unhealthyThreshold) false
  (r.1, .result r.2) ::
    (counted.marks r.1 (status.consecutiveFailures ≥ config.unhealthyThreshold) false ++
      failed.marks r.1 (status.consecutiveSuccesses ≥ config.healthyThreshold) true).map fun v => (r.1, .marked v)

/-- The body of the join loop, with the journal so far. -/
def journalBody (config : HealthCheckConfig) (js : List (SocketAddr × Entry) × HealthChecker)
    (r : SocketAddr × HealthCheckResult) : List (SocketAddr × Entry) × HealthChecker :=
  (js.1 ++ journalResult config js.2 r, applyResult config js.2 r.1 r.2)

def journalTick (config : HealthCheckConfig) {bs : List Backend} (js : List (SocketAddr × Entry) × HealthChecker)
    (t : Tick bs) : Unit × (List (SocketAddr × Entry) × HealthChecker) :=
  ((), ((joinLoop (journalBody config) js t.results).1, prune (joinLoop (journalBody config) js t.results).2))

def entriesOf (addr : SocketAddr) (journal : List (SocketAddr × Entry)) : List Entry :=
  (journal.filter (·.1 = addr)).map (·.2)

/-- The entries of a backend in the journal of `HealthChecker::run` over the ticks. -/
def journal (config : HealthCheckConfig) (pool : BackendPool) (metrics : GunghoMetrics)
    (ticks : List (Tick pool.allBackends)) (b : Backend) : List Entry :=
  entriesOf b.addr (run (journalTick config) ([], .start pool metrics) ticks).2.1

/-- The journal is kept beside the run and does not change it. -/
theorem journalTick_checker (config : HealthCheckConfig) {bs : List Backend}
    (js : List (SocketAddr × Entry) × HealthChecker) (t : Tick bs) :
    (journalTick config js t).2.2 = (tick config js.2 t).2 := by
  have hloop : ∀ (results : List (Option (SocketAddr × HealthCheckResult)))
      (js : List (SocketAddr × Entry) × HealthChecker),
      (joinLoop (journalBody config) js results).2 = joinAll config js.2 results := by
    intro results
    induction results with
    | nil => intro js; rfl
    | cons r rest ih =>
      intro js
      cases r with
      | none => rfl
      | some r => exact ih _
  exact congrArg prune (hloop t.results js)

/-- A mark in the journal is a change of the flag, and no mark is no change. -/
theorem transition_of_marks (s : HealthChecker) (addr : SocketAddr) (reached healthy : Bool) :
    (s.marks addr reached healthy = [] ∧ s.transition addr reached healthy = s) ∨
      (s.marks addr reached healthy = [healthy] ∧ s.pool.getHealthByAddr addr = some (!healthy)) := by
  unfold HealthChecker.marks HealthChecker.transition
  split
  · rename_i h
    exact .inr ⟨rfl, by simpa using (Bool.and_eq_true_iff.1 h).2⟩
  · exact .inl ⟨rfl, rfl⟩

/-! ## What a journal should look like -/

/-- As long as all results are successes there is no mark as unhealthy, and from such a mark to the
next mark as healthy there is a success. -/
structure Justified (log : List Entry) : Prop where
  unhealthy : ∀ past, past <+: log → (∀ r, .result r ∈ past → r = .healthy) → .marked false ∉ past
  healthy : ∀ past since, past ++ .marked false :: since ++ [.marked true] <+: log → .result .healthy ∈ since

theorem justified_nil : Justified [] := by
  refine ⟨fun past h _ hm => ?_, fun past since h => ?_⟩
  · rw [List.prefix_nil.1 h] at hm
    cases hm
  · simpa using List.prefix_nil.1 h

/-- One more entry: a mark as unhealthy needs a failure in the log, a mark as healthy comes right
after a success. -/
theorem Justified.concat {log : List Entry} (h : Justified log) (e : Entry)
    (hf : e = .marked false → .result .unhealthy ∈ log)
    (ht : e = .marked true → log.getLast? = some (.result .healthy)) :
    Justified (log ++ [e]) := by
  refine ⟨fun past hpast hall hm => ?_, fun past since hpast => ?_⟩
  · rcases List.prefix_concat_iff.1 hpast with rfl | hpast
    · have hlog := h.unhealthy log (List.prefix_refl _) fun r hr => hall r (List.mem_append_left _ hr)
      rcases List.mem_append.1 hm with hm | hm
      · exact hlog hm
      · have hfail := hall .unhealthy (List.mem_append_left _ (hf (List.mem_singleton.1 hm).symm))
        cases hfail
    · exact h.unhealthy past hpast hall hm
  · rcases List.prefix_concat_iff.1 hpast with heq | hpast
    · obtain ⟨hlog, hlast⟩ := List.append_inj' heq rfl
      have hget := ht (List.singleton_inj.1 hlast).symm
      rcases List.eq_nil_or_concat since with rfl | ⟨init, last, rfl⟩
      · simp [← hlog] at hget
      · have hinit : log = (past ++ .marked false :: init) ++ [last] := by rw [← hlog]; simp
        rw [hinit, List.getLast?_concat] at hget
        cases hget
        simp
    · exact h.healthy past since hpast

theorem Justified.result {log : List Entry} (h : Justified log) (r : HealthCheckResult) :
    Justified (log ++ [.result r]) :=
  h.concat _ (fun e => by cases e) fun e => by cases e

/-! ## Thresholds of 1 or more -/

section

variable {config : HealthCheckConfig}

/-- A mark comes right after the result that reached its threshold: a failure for a mark as unhealthy,
a success for a mark as healthy. -/
theorem journalResult_cases (hu : 1 ≤ config.unhealthyThreshold) (hh : 1 ≤ config.healthyThreshold)
    (s : HealthChecker) (r : SocketAddr × HealthCheckResult) :
    journalResult config s r = [(r.1, .result r.2)] ∨
      (r.2 = .unhealthy ∧ journalResult config s r = [(r.1, .result r.2), (r.1, .marked false)]) ∨
      (r.2 = .healthy ∧ journalResult config s r = [(r.1, .result r.2), (r.1, .marked true)]) := by
  obtain ⟨addr, result⟩ := r
  cases result with
  | healthy =>
    -- the failures were reset: only the second check can mark
    have hfail : ¬ config.unhealthyThreshold ≤ 0 := not_le_zero hu
    unfold journalResult
    simp only [BackendStatus.update, ge_iff_le, hfail, decide_false]
    rcases transition_of_marks _ addr _ true with ⟨hm, -⟩ | ⟨hm, -⟩
    · left; rw [hm]; rfl
    · right; right; rw [hm]; exact ⟨trivial, rfl⟩
  | unhealthy =>
    have hsucc : ¬ config.healthyThreshold ≤ 0 := not_le_zero hh
    unfold journalResult
    simp only [BackendStatus.update, ge_iff_le, hsucc, decide_false]
    rcases transition_of_marks _ addr _ false with ⟨hm, -⟩ | ⟨hm, -⟩
    · left; rw [hm]; rfl
    · right; left; rw [hm]; exact ⟨trivial, rfl⟩

theorem entriesOf_append (addr : SocketAddr) (l m : List (SocketAddr × Entry)) :
    entriesOf addr (l ++ m) = entriesOf addr l ++ entriesOf addr m := by
  simp [entriesOf]

/-- Every joined result leaves every backend's journal justified. -/
theorem justified_journalResult (hu : 1 ≤ config.unhealthyThreshold) (hh : 1 ≤ config.healthyThreshold)
    (s : HealthChecker) (r : SocketAddr × HealthCheckResult) {log : List (SocketAddr × Entry)} {addr : SocketAddr}
    (h : Justified (entriesOf addr log)) : Justified (entriesOf addr (log ++ journalResult config s r)) := by
  rw [entriesOf_append]
  by_cases haddr : r.1 = addr
  · rcases journalResult_cases hu hh s r with hj | ⟨hr, hj⟩ | ⟨hr, hj⟩
    · have he : entriesOf addr (journalResult config s r) = [.result r.2] := by simp [hj, entriesOf, haddr]
      rw [he]
      exact h.result r.2
    · have he : entriesOf addr (journalResult config s r) = [.result .unhealthy] ++ [.marked false] := by
        simp [hj, entriesOf, haddr, hr]
      rw [he, ← List.append_assoc]
      exact (h.result .unhealthy).concat _ (fun _ => by simp) fun e => by cases e
    · have he : entriesOf addr (journalResult config s r) = [.result .healthy] ++ [.marked true] := by
        simp [hj, entriesOf, haddr, hr]
      rw [he, ← List.append_assoc]
      exact (h.result .healthy).concat _ (fun e => by cases e) fun _ => by simp
  · have he : entriesOf addr (journalResult config s r) = [] := by
      rcases journalResult_cases hu hh s r with hj | ⟨hr, hj⟩ | ⟨hr, hj⟩ <;> simp [hj, entriesOf, haddr]
    rw [he, List.append_nil]
    exact h

theorem justified_journal (hu : 1 ≤ config.unhealthyThreshold) (hh : 1 ≤ config.healthyThreshold)
    (pool : BackendPool) (metrics : GunghoMetrics) (ticks : List (Tick pool.allBackends)) (b : Backend) :
    Justified (journal config pool metrics ticks b) := by
  let I : List (SocketAddr × Entry) × HealthChecker → Prop := fun js => Justified (entriesOf b.addr js.1)
  refine inv_run I (fun js t hjs _ => ?_) ticks ([], .start pool metrics) justified_nil (along_true ticks _)
  show I (joinLoop (journalBody config) js t.results)
  rw [joinLoop_eq_foldl]
  exact List.foldlRecOn _ _ hjs fun js hjs r _ => justified_journalResult hu hh js.2 r hjs

end

/-! ## A threshold of 0 -/

/-- A pool of one backend. -/
def single : BackendPool := .new .init [⟨0, .v4 ⟨10, 0, 0, 1⟩ 80, 1⟩] (by decide)

/-- A tick of one check with the given result. -/
def Tick.single (result : HealthCheckResult) : Tick single.allBackends := ⟨fun _ => some result, _, .refl _⟩

section

variable {config : HealthCheckConfig} {bs : List Backend} {s : HealthChecker} {b : Backend}

/-- What the journal gets for a failure that reaches its threshold when the other one is 0: the
backend is marked unhealthy and healthy again by one result. -/
theorem journalResult_both (hn : (s.pool.backends.map (·.addr)).Nodup) (hb : b ∈ s.pool.backends)
    (hzero : config.healthyThreshold = 0) {c : UInt32} (hown : s.own b = (⟨0, c⟩, true))
    (hc : config.unhealthyThreshold ≤ c + 1) :
    journalResult config s (b.addr, .unhealthy) =
      [(b.addr, .result .unhealthy), (b.addr, .marked false), (b.addr, .marked true)] := by
  have hstatus : s.status b.addr = ⟨0, c⟩ := congrArg Prod.fst hown
  have hmarks : ∀ s' : HealthChecker, s'.pool.backends = s.pool.backends → ∀ reached healthy,
      s'.marks b.addr reached healthy = if reached && (s'.own b).2 == !healthy then [healthy] else [] := by
    intro s' hback reached healthy
    unfold HealthChecker.marks
    rw [getHealthByAddr_of_nodup (hback ▸ hn) (hback ▸ hb)]
    rfl
  have hcount := settles_count s hn hb ⟨0, c + 1⟩
  have hfail := settles_transition (s.count b.addr ⟨0, c + 1⟩) hn hb true false
  have hflag : ((s.count b.addr ⟨0, c + 1⟩).own b).2 = true := by rw [hcount.self, hown]
  have hflag' : (((s.count b.addr ⟨0, c + 1⟩).transition b.addr true false).own b).2 = false := by
    rw [hfail.self]
    rfl
  unfold journalResult
  simp only [hstatus, BackendStatus.update, ge_iff_le, hc, hzero, decide_true]
  rw [hmarks _ hcount.backends, hmarks _ (hfail.backends.trans hcount.backends), hflag, hflag']
  rfl

end

theorem eq_zero_of_not_one_le {n : UInt32} (h : ¬ 1 ≤ n) : n = 0 := by
  have hone : (1 : UInt32).toNat = 1 := rfl
  have hzero : (0 : UInt32).toNat = 0 := rfl
  rw [UInt32.le_iff_toNat_le] at h
  rw [← UInt32.toNat_inj]
  omega

/-- With `healthy_threshold` 0 the flag is true after every tick, however many checks have failed. -/
theorem own_failures {config : HealthCheckConfig} (hzero : config.healthyThreshold = 0) (n : Nat) :
    let js := (run (journalTick config) ([], .start single .new) (List.replicate n (Tick.single .unhealthy))).2
    Checks single.allBackends js.2 ∧ ∀ b ∈ single.allBackends, js.2.own b = (⟨0, UInt32.ofNat n⟩, true) := by
  induction n with
  | zero =>
    refine ⟨⟨rfl, rfl⟩, fun b hb => ?_⟩
    rfl
  | succ n ih =>
    obtain ⟨hchecks, hown⟩ := ih
    intro js
    have hjs : js.2 = (tick config (run (journalTick config) ([], .start single .new)
        (List.replicate n (Tick.single .unhealthy))).2.2 (Tick.single .unhealthy)).2 := by
      show (run (journalTick config) ([], .start single .new)
        (List.replicate (n + 1) (Tick.single .unhealthy))).2.2 = _
      rw [List.replicate_succ', run_append, ← journalTick_checker]
      rfl
    obtain ⟨hchecks', hown'⟩ := tick_own config (by decide) (by decide) hchecks (Tick.single .unhealthy) fun _ _ => rfl
    rw [hjs]
    refine ⟨hchecks', fun b hb => ?_⟩
    rw [hown' b hb, hown b hb]
    simp [ownUpdate, Tick.single, BackendStatus.update, hzero]

/-- The failure that reaches `unhealthy_threshold` is followed by both marks. -/
theorem journal_both {config : HealthCheckConfig} (hzero : config.healthyThreshold = 0)
    (hu : 1 ≤ config.unhealthyThreshold) {b : Backend} (hb : b ∈ single.allBackends) :
    ∃ ticks past, journal config single .new ticks b =
      past ++ [.result .unhealthy] ++ .marked false :: [] ++ [.marked true] := by
  obtain ⟨n, hn⟩ := Nat.exists_eq_add_of_le' (one_le_toNat hu)
  obtain ⟨hchecks, hown⟩ := own_failures hzero n
  set js := (run (journalTick config) ([], .start single .new) (List.replicate n (Tick.single .unhealthy))).2
    with hjs
  have hc : config.unhealthyThreshold ≤ UInt32.ofNat n + 1 := by
    have hlt := config.unhealthyThreshold.toNat_lt
    rw [UInt32.le_iff_toNat_le, toNat_succ UInt32.toNat_ofNat', hn, Nat.mod_eq_of_lt (hn ▸ hlt)]
  have hback : js.2.pool.backends = single.allBackends := hchecks.backends
  have hlast := journalResult_both (hback.symm ▸ by decide : (js.2.pool.backends.map (·.addr)).Nodup) (hback ▸ hb) hzero
    (hown b hb) hc
  refine ⟨List.replicate n (Tick.single .unhealthy) ++ [Tick.single .unhealthy], entriesOf b.addr js.1, ?_⟩
  have hrun : (run (journalTick config) ([], .start single .new)
      (List.replicate n (Tick.single .unhealthy) ++ [Tick.single .unhealthy])).2.1 =
        js.1 ++ journalResult config js.2 (b.addr, .unhealthy) := by
    rw [run_append, ← hjs, List.mem_singleton.1 hb]
    rfl
  unfold journal
  rw [hrun, entriesOf_append, hlast]
  simp [entriesOf]

/-- With `unhealthy_threshold` 0 a success is followed by a mark as unhealthy. -/
theorem journal_zero_unhealthy {config : HealthCheckConfig} (hzero : config.unhealthyThreshold = 0) :
    ∃ rest, journal config single .new [Tick.single .healthy] ⟨0, .v4 ⟨10, 0, 0, 1⟩ 80, 1⟩ =
      [.result .healthy, .marked false] ++ rest := by
  let b : Backend := ⟨0, .v4 ⟨10, 0, 0, 1⟩ 80, 1⟩
  have hrun : journal config single .new [Tick.single .healthy] b =
      entriesOf b.addr (journalResult config (.start single .new) (b.addr, .healthy)) := rfl
  have hstatus : (HealthChecker.start single .new).status b.addr = ⟨0, 0⟩ := rfl
  have hmarks : ((HealthChecker.start single .new).count b.addr ⟨0 + 1, 0⟩).marks b.addr true false = [false] := rfl
  rw [hrun]
  unfold journalResult
  simp only [hstatus, BackendStatus.update, hzero, ge_iff_le, UInt32.le_refl, decide_true, hmarks]
  exact ⟨_, rfl⟩

/-! ## The result -/

/-- Every run on every fresh pool with distinct addresses has justified marks only, exactly when both
thresholds are 1 or more. -/
theorem justified_iff (config : HealthCheckConfig) :
    (∀ pool : BackendPool, pool.Fresh → (pool.allBackends.map (·.addr)).Nodup → ∀ metrics ticks,
        ∀ b ∈ pool.allBackends, Justified (journal config pool metrics ticks b)) ↔
      1 ≤ config.unhealthyThreshold ∧ 1 ≤ config.healthyThreshold := by
  constructor
  · intro h
    have hsingle := h single ⟨by decide, rfl⟩ (by decide) .new
    have hmem : ⟨0, .v4 ⟨10, 0, 0, 1⟩ 80, 1⟩ ∈ single.allBackends := List.mem_singleton_self _
    have hu : 1 ≤ config.unhealthyThreshold := by
      by_contra hu
      obtain ⟨rest, hj⟩ := journal_zero_unhealthy (eq_zero_of_not_one_le hu)
      have hjust := hsingle [Tick.single .healthy] _ hmem
      rw [hj] at hjust
      exact hjust.unhealthy _ (List.prefix_append _ _) (by simp) (by simp)
    refine ⟨hu, ?_⟩
    by_contra hh
    obtain ⟨ticks, past, hj⟩ := journal_both (eq_zero_of_not_one_le hh) hu hmem
    have hjust := hsingle ticks _ hmem
    rw [hj] at hjust
    exact absurd (hjust.healthy _ [] (List.prefix_refl _)) (by simp)
  · rintro ⟨hu, hh⟩ pool - - metrics ticks b -
    exact justified_journal hu hh pool metrics ticks b

/-- With `unhealthy_threshold = 0`, which is accepted, one successful check takes the backend out. -/
theorem success_marks_unhealthy :
    let cfg : Config := { backends := [⟨"10.0.0.1:80".toList, 1⟩], healthCheck := { unhealthyThreshold := 0 } }
    cfg.validate = .ok () ∧
      ¬ ∀ ticks, ∀ b ∈ single.allBackends, Justified (journal cfg.healthCheck single .new ticks b) := by
  intro cfg
  refine ⟨by decide, fun h => ?_⟩
  have hjust := h [Tick.single .healthy] _ (List.mem_singleton_self _)
  have hj : journal cfg.healthCheck single .new [Tick.single .healthy] ⟨0, .v4 ⟨10, 0, 0, 1⟩ 80, 1⟩ =
      [.result .healthy, .marked false] := by decide
  rw [hj] at hjust
  exact hjust.unhealthy _ (List.prefix_refl _) (by simp) (by simp)

end Gungho.Health
