/-
How often a backend goes out of rotation and comes back. A change of its flag needs a full run of
results against the flag, and that run is used up by the change: whatever the results are, the number
of changes is bounded by the number of results applied to the address and the two thresholds.
-/
import Gungho.Lib.Damping
import Gungho.Health.ByAddress
import Mathlib.Data.List.Infix

namespace Gungho.Health

open Gungho.Lib Gungho.Net Gungho.Pool

/-! ## The automaton as a switch -/

/-- How many results in a row for a flag make the automaton take it. -/
def needed (config : HealthCheckConfig) (v : Bool) : Nat := (threshold config v).toNat

theorem flag_injective : Function.Injective HealthCheckResult.flag := by
  intro a b h
  cases a <;> cases b <;> simp_all [HealthCheckResult.flag]

theorem flag_resultFor (v : Bool) : (resultFor v).flag = v := by
  cases v <;> rfl

theorem automaton_eq_switch {config : HealthCheckConfig} (hpos : ∀ v, 1 ≤ needed config v)
    (recent : List HealthCheckResult) :
    automaton config.unhealthyThreshold.toNat config.healthyThreshold.toNat recent =
      if switch (needed config) (recent.map (·.flag)) then .healthy else .unhealthy := by
  induction recent with
  | nil => rfl
  | cons r rest ih =>
    obtain ⟨v, rfl⟩ := exists_resultFor r
    have htrail : ∀ w, trail (resultFor w) (resultFor v :: rest) = trail w (v :: rest.map (·.flag)) := by
      intro w
      rw [← trail_map flag_injective, List.map_cons, flag_resultFor, flag_resultFor]
    rw [automaton, ih, next_of_flag, htrail, List.map_cons, flag_resultFor, switch]
    rcases Bool.eq_or_eq_not v (switch (needed config) (rest.map (·.flag))) with hv | hv
    · -- a result for the state that the automaton has
      have hzero : trail (!v) (v :: rest.map (·.flag)) = 0 := trail_cons_ne (by cases v <;> decide) _
      have hlong : ¬ (threshold config (!v)).toNat ≤ 0 := Nat.not_le_of_lt (hpos (!v))
      rw [← hv, hzero, if_neg hlong, ite_self]
    · rw [← hv]
      rfl

/-! ## The flag of a backend over a run -/

/-- The flag of a backend before the first tick and after each tick. -/
def flagsSeen (config : HealthCheckConfig) (s : HealthChecker) {bs : List Backend} (ticks : List (Tick bs))
    (b : Backend) : List Bool :=
  ticks.inits.map fun past => b.getHealth (run (tick config) s past).2.pool.mem

theorem flagsSeen_concat (config : HealthCheckConfig) (s : HealthChecker) {bs : List Backend} (ticks : List (Tick bs))
    (t : Tick bs) (b : Backend) :
    ∃ earlier, flagsSeen config s ticks b = earlier ++ [b.getHealth (run (tick config) s ticks).2.pool.mem] ∧
      flagsSeen config s (ticks ++ [t]) b = earlier ++ [b.getHealth (run (tick config) s ticks).2.pool.mem,
        b.getHealth (run (tick config) s (ticks ++ [t])).2.pool.mem] := by
  have hconcat : ∀ past : List (Tick bs), (past ++ [t]).inits = past.inits ++ [past ++ [t]] := fun past => by
    rw [List.inits_append]
    rfl
  have hlast : ∃ before, ticks.inits = before ++ [ticks] := by
    induction ticks using List.reverseRecOn with
    | nil => exact ⟨[], rfl⟩
    | append_singleton past u => exact ⟨past.inits, by rw [List.inits_append]; rfl⟩
  obtain ⟨before, hbefore⟩ := hlast
  refine ⟨before.map fun past => b.getHealth (run (tick config) s past).2.pool.mem, ?_, ?_⟩
  · rw [flagsSeen, hbefore, List.map_append, List.map_singleton]
  · rw [flagsSeen, hconcat, hbefore, List.map_append, List.map_append, List.map_singleton, List.map_singleton,
      List.append_assoc]
    rfl

theorem heard_concat {bs : List Backend} (ticks : List (Tick bs)) (t : Tick bs) :
    heard (ticks ++ [t]) = (applied t.results).reverse ++ heard ticks := by
  simp [heard, List.flatMap_append]

/-- The entries of the switch: the results for the backend's address. -/
def entries {bs : List Backend} (ticks : List (Tick bs)) (b : Backend) : List Bool :=
  (resultsFor b.addr (heard ticks)).map (·.flag)

theorem entries_concat {bs : List Backend} (ticks : List (Tick bs)) (t : Tick bs) (b : Backend) :
    ∃ batch, entries (ticks ++ [t]) b = batch ++ entries ticks b := by
  refine ⟨(resultsFor b.addr (applied t.results).reverse).map (·.flag), ?_⟩
  simp [entries, heard_concat, resultsFor]

/-- The flag of a first backend is where the switch is. -/
theorem getHealth_eq_switch {config : HealthCheckConfig} (hpos : ∀ v, 1 ≤ threshold config v) {bs : List Backend}
    {s : HealthChecker} (hs : Watched config bs [] s) (ticks : List (Tick bs)) {b : Backend} (hb : IsFirst bs b) :
    b.getHealth (run (tick config) s ticks).2.pool.mem = switch (needed config) (entries ticks b) := by
  rw [(watched_run hpos hs ticks).flags.1 b hb.mem, inRotation_first hb, verdict,
    automaton_eq_switch (fun v => one_le_toNat (hpos v))]
  show decide ((if switch (needed config) (entries ticks b) then HealthState.healthy else .unhealthy) = .healthy) = _
  cases switch (needed config) (entries ticks b) <;> rfl

theorem changes_le_turns {config : HealthCheckConfig} (hpos : ∀ v, 1 ≤ threshold config v) {bs : List Backend}
    {s : HealthChecker} (hs : Watched config bs [] s) (ticks : List (Tick bs)) {b : Backend} (hb : IsFirst bs b) :
    changes (flagsSeen config s ticks b) ≤ turns (needed config) (entries ticks b) := by
  induction ticks using List.reverseRecOn with
  | nil => exact Nat.zero_le _
  | append_singleton ticks t ih =>
    obtain ⟨earlier, hseen, hseen'⟩ := flagsSeen_concat config s ticks t b
    obtain ⟨batch, hbatch⟩ := entries_concat ticks t b
    have hturns := turns_append (needed config) batch (entries ticks b)
    have hflag := getHealth_eq_switch hpos hs ticks hb
    have hflag' := getHealth_eq_switch hpos hs (ticks ++ [t]) hb
    rw [hseen] at ih
    rw [hseen', changes_concat, hflag, hflag', hbatch]
    rw [hflag] at ih
    simp only [eq_comm (a := switch (needed config) (entries ticks b))]
    omega

/-! ## The result -/

/-- In every run of the checker on a fresh pool the flag of a backend changes so seldom that the results applied to its
address hold `unhealthyThreshold` of them for every change to unhealthy and `healthyThreshold` for every change back. -/
theorem flag_changes_bounded (config : HealthCheckConfig) (hu : 1 ≤ config.unhealthyThreshold)
    (hh : 1 ≤ config.healthyThreshold) (pool : BackendPool) (hf : pool.Fresh) (metrics : GunghoMetrics)
    (ticks : List (Tick pool.allBackends)) :
    ∀ b ∈ pool.allBackends,
      let k := changes (flagsSeen config (.start pool metrics) ticks b)
      k / 2 * (config.healthyThreshold.toNat + config.unhealthyThreshold.toNat) +
          k % 2 * config.unhealthyThreshold.toNat ≤
        (resultsFor b.addr (heard ticks)).length := by
  intro b hb k
  have hpos := threshold_pos hu hh
  have hs := watched_start hpos hf metrics
  have hcost := cost_eq (needed config) k
  rw [show k / 2 * (config.healthyThreshold.toNat + config.unhealthyThreshold.toNat) +
    k % 2 * config.unhealthyThreshold.toNat = cost (needed config) k from hcost.symm]
  by_cases hfirst : IsFirst pool.allBackends b
  · have hk : k ≤ turns (needed config) (entries ticks b) := changes_le_turns hpos hs ticks hfirst
    have hfits := (damped (fun v => one_le_toNat (hpos v)) (entries ticks b)).fits
    calc cost (needed config) k ≤ cost (needed config) (turns (needed config) (entries ticks b)) := cost_mono _ hk
      _ ≤ (entries ticks b).length := by unfold needed; omega
      _ = (resultsFor b.addr (heard ticks)).length := List.length_map ..
  · -- no result reaches the backend: its flag stays as it is
    have hk : k = 0 := changes_of_forall (x := true) fun v hv => by
      obtain ⟨past, -, rfl⟩ := List.mem_map.1 hv
      exact (watched_run hpos hs past).shadowed b hb hfirst
    rw [hk]
    exact Nat.zero_le _

/-- Out after two failures, back after one success: the bound is met with equality. -/
theorem flag_changes_bounded_pair :
    let config : HealthCheckConfig := { unhealthyThreshold := 2, healthyThreshold := 1 }
    let b : Backend := ⟨0, .v4 ⟨10, 0, 0, 1⟩ 80, 1⟩
    let ticks : List (Tick BackendPool.pair.allBackends) :=
      [.unhealthy, .unhealthy, .healthy].map fun result => ⟨fun _ => some result, BackendPool.pair.backends, .refl _⟩
    changes (flagsSeen config (.start .pair .new) ticks b) = 2 ∧
      2 / 2 * (1 + 2) + 2 % 2 * 2 ≤ (resultsFor b.addr (heard ticks)).length := by
  intro config b ticks
  have hchanges : changes (flagsSeen config (.start .pair .new) ticks b) = 2 := by decide
  have h := flag_changes_bounded config (by decide) (by decide) .pair ⟨by decide, rfl⟩ .new ticks b (by decide)
  rw [hchanges] at h
  exact ⟨hchanges, h⟩

end Gungho.Health
