/-
README "Health state machine": on a pool with distinct addresses every backend's health is the
state of the documented automaton run on that backend's own results, whatever the other backends'
results and the order in which a tick's checks are joined, and the healthy list follows.

The counters hold the lengths of the trailing runs modulo `2 ^ 32`. A threshold is a `u32`, and
a run that reaches it changes the state at once, so the run that still matters is below `2 ^ 32`.
-/
import Gungho.Lib.Trail
import Gungho.Health.Checker
import Gungho.Pool.Distinct

namespace Gungho.Health

open Gungho.Lib Gungho.Net Gungho.Pool

/-! ## The documented automaton -/

inductive HealthState where
  | healthy
  | unhealthy
  deriving DecidableEq, Repr

/-- Healthy turns unhealthy when the last `unhealthyThreshold` results are failures, unhealthy
turns healthy when the last `healthyThreshold` results are successes. `recent` is newest first. -/
def HealthState.next (unhealthyThreshold healthyThreshold : Nat) (recent : List HealthCheckResult) :
    HealthState → HealthState
  | .healthy =>
    if recent.take unhealthyThreshold = List.replicate unhealthyThreshold .unhealthy then .unhealthy else .healthy
  | .unhealthy =>
    if recent.take healthyThreshold = List.replicate healthyThreshold .healthy then .healthy else .unhealthy

/-- The automaton's state after the results `recent`, newest first. -/
def automaton (unhealthyThreshold healthyThreshold : Nat) : List HealthCheckResult → HealthState
  | [] => .healthy
  | r :: rs =>
    (automaton unhealthyThreshold healthyThreshold rs).next unhealthyThreshold healthyThreshold (r :: rs)

/-- The results of one backend over the ticks, newest first. -/
def history {bs : List Backend} (ticks : List (Tick bs)) (b : Backend) : List HealthCheckResult :=
  (ticks.filterMap (·.outcome b)).reverse

/-! ## Flags and results -/

/-- The result that speaks for a flag. -/
def resultFor : Bool → HealthCheckResult
  | true => .healthy
  | false => .unhealthy

/-- The flag that a result speaks for. -/
def HealthCheckResult.flag : HealthCheckResult → Bool
  | .healthy => true
  | .unhealthy => false

/-- The counter of the results for a flag. -/
def BackendStatus.counted (status : BackendStatus) : Bool → UInt32
  | true => status.consecutiveSuccesses
  | false => status.consecutiveFailures

/-- How many results in a row for a flag make the checker set it. -/
def threshold (config : HealthCheckConfig) : Bool → UInt32
  | true => config.healthyThreshold
  | false => config.unhealthyThreshold

theorem counted_update (status : BackendStatus) (v : Bool) :
    (status.update (resultFor v)).counted v = status.counted v + 1 ∧
      (status.update (resultFor v)).counted (!v) = 0 := by
  cases v <;> exact ⟨rfl, rfl⟩

@[simp] theorem resultFor_flag (result : HealthCheckResult) : resultFor result.flag = result := by
  cases result <;> rfl

theorem exists_resultFor (result : HealthCheckResult) : ∃ v, result = resultFor v :=
  ⟨result.flag, (resultFor_flag result).symm⟩

theorem resultFor_ne (v : Bool) : resultFor v ≠ resultFor (!v) := by
  cases v <;> decide

theorem threshold_pos {config : HealthCheckConfig} (hu : 1 ≤ config.unhealthyThreshold)
    (hh : 1 ≤ config.healthyThreshold) (v : Bool) : 1 ≤ threshold config v := by
  cases v
  · exact hu
  · exact hh

/-! ## One backend -/

/-- What `applyResult` does to the counters and the flag of the result's backend. -/
def ownUpdate (config : HealthCheckConfig) (result : HealthCheckResult) (own : BackendStatus × Bool) :
    BackendStatus × Bool :=
  let status := own.1.update result
  let flag := if status.consecutiveFailures ≥ config.unhealthyThreshold then false else own.2
  (status, if status.consecutiveSuccesses ≥ config.healthyThreshold then true else flag)

/-- Counters and flag of a backend with the given results: the counters are the trailing runs
modulo `2 ^ 32`, the flag is the automaton's state, and the run that could change it is still
below its threshold. -/
structure Tracks (config : HealthCheckConfig) (recent : List HealthCheckResult) (own : BackendStatus × Bool) :
    Prop where
  successes : own.1.consecutiveSuccesses.toNat = trail .healthy recent % 2 ^ 32
  failures : own.1.consecutiveFailures.toNat = trail .unhealthy recent % 2 ^ 32
  state : automaton config.unhealthyThreshold.toNat config.healthyThreshold.toNat recent =
    if own.2 then .healthy else .unhealthy
  below : own.2 = true → trail .unhealthy recent < config.unhealthyThreshold.toNat
  above : own.2 = false → trail .healthy recent < config.healthyThreshold.toNat

theorem toNat_succ {c : UInt32} {n : Nat} (hc : c.toNat = n % 2 ^ 32) : (c + 1).toNat = (n + 1) % 2 ^ 32 := by
  have h1 : (1 : UInt32).toNat = 1 := rfl
  rw [UInt32.toNat_add, hc, h1]
  omega

/-- Below a `u32` threshold the counter has not wrapped: it reaches the threshold when the run does. -/
theorem le_succ_iff {c t : UInt32} {n : Nat} (hc : c.toNat = n % 2 ^ 32) (hn : n < t.toNat) :
    t ≤ c + 1 ↔ t.toNat ≤ n + 1 := by
  have ht := t.toNat_lt
  rw [UInt32.le_iff_toNat_le, toNat_succ hc, Nat.mod_eq_of_lt (by omega)]

theorem not_le_zero {t : UInt32} (h : 1 ≤ t) : ¬ t ≤ 0 := by
  rw [UInt32.le_iff_toNat_le] at *
  have h0 : (0 : UInt32).toNat = 0 := rfl
  have h1 : (1 : UInt32).toNat = 1 := rfl
  omega

theorem one_le_toNat {t : UInt32} (h : 1 ≤ t) : 1 ≤ t.toNat := UInt32.le_iff_toNat_le.1 h

variable {config : HealthCheckConfig}

/-- The counters of a backend are the trailing runs of its results modulo `2 ^ 32`, and the run that could
change its flag is below its threshold. -/
structure Counted (config : HealthCheckConfig) (recent : List HealthCheckResult) (own : BackendStatus × Bool) :
    Prop where
  counts : ∀ v, (own.1.counted v).toNat = trail (resultFor v) recent % 2 ^ 32
  below : trail (resultFor (!own.2)) recent < (threshold config (!own.2)).toNat

theorem tracks_iff {recent : List HealthCheckResult} {own : BackendStatus × Bool} :
    Tracks config recent own ↔ Counted config recent own ∧
      automaton config.unhealthyThreshold.toNat config.healthyThreshold.toNat recent =
        if own.2 then .healthy else .unhealthy := by
  obtain ⟨status, flag⟩ := own
  constructor
  · rintro ⟨hs, hf, hstate, hbelow, habove⟩
    refine ⟨⟨fun v => ?_, ?_⟩, hstate⟩
    · cases v
      · exact hf
      · exact hs
    · cases flag
      · exact habove rfl
      · exact hbelow rfl
  · rintro ⟨⟨hcounts, hbelow⟩, hstate⟩
    refine ⟨hcounts true, hcounts false, hstate, ?_, ?_⟩
    · rintro rfl
      exact hbelow
    · rintro rfl
      exact hbelow

section

variable (hpos : ∀ v, 1 ≤ threshold config v)
include hpos

theorem counted_nil (flag : Bool) : Counted config [] (⟨0, 0⟩, flag) :=
  ⟨fun v => by cases v <;> rfl, one_le_toNat (hpos _)⟩

/-- A result for the flag that a backend has. -/
theorem ownUpdate_self (status : BackendStatus) (v : Bool) :
    ownUpdate config (resultFor v) (status, v) = (status.update (resultFor v), v) := by
  have hzero : ¬ threshold config (!v) ≤ 0 := not_le_zero (hpos (!v))
  cases v
  · simp_all [ownUpdate, resultFor, BackendStatus.update, threshold]
  · simp_all [ownUpdate, resultFor, BackendStatus.update, threshold]

/-- A result against the flag that a backend has sets the other flag when its run reaches the threshold. -/
theorem ownUpdate_other {recent : List HealthCheckResult} {status : BackendStatus} {v : Bool}
    (h : Counted config recent (status, !v)) :
    ownUpdate config (resultFor v) (status, !v) =
      (status.update (resultFor v),
        if (threshold config v).toNat ≤ trail (resultFor v) (resultFor v :: recent) then v else !v) := by
  have hzero : ¬ threshold config (!v) ≤ 0 := not_le_zero (hpos (!v))
  have hown : ownUpdate config (resultFor v) (status, !v) =
      (status.update (resultFor v),
        if threshold config v ≤ (status.update (resultFor v)).counted v then v else !v) := by
    cases v
    · simp_all [ownUpdate, resultFor, BackendStatus.update, BackendStatus.counted, threshold]
    · simp_all [ownUpdate, resultFor, BackendStatus.update, BackendStatus.counted, threshold]
  -- the run was below the threshold, so the counter has not wrapped
  have hbelow : trail (resultFor v) recent < (threshold config v).toNat := by simpa using h.below
  have hreach := le_succ_iff (h.counts v) hbelow
  rw [hown, (counted_update status v).1, trail_cons_self]
  simp only [hreach]

/-- The other counter is 0 after a result, and the counter of its flag goes with the run. -/
theorem Counted.step {recent : List HealthCheckResult} {own : BackendStatus × Bool} (h : Counted config recent own)
    (v : Bool) : Counted config (resultFor v :: recent) (ownUpdate config (resultFor v) own) := by
  obtain ⟨status, flag⟩ := own
  have hzero : trail (resultFor (!v)) (resultFor v :: recent) = 0 := trail_cons_ne (resultFor_ne v) _
  have hother : trail (resultFor (!v)) (resultFor v :: recent) < (threshold config (!v)).toNat := by
    have := one_le_toNat (hpos (!v))
    omega
  have hcounts : ∀ w, ((status.update (resultFor v)).counted w).toNat =
      trail (resultFor w) (resultFor v :: recent) % 2 ^ 32 := by
    intro w
    rcases Bool.eq_or_eq_not w v with rfl | rfl
    · rw [(counted_update status w).1, trail_cons_self]
      exact toNat_succ (h.counts w)
    · rw [(counted_update status v).2, hzero]
      rfl
  rcases Bool.eq_or_eq_not flag v with rfl | rfl
  · rw [ownUpdate_self hpos]
    exact ⟨hcounts, hother⟩
  · rw [ownUpdate_other hpos h]
    split
    · exact ⟨hcounts, hother⟩
    · rename_i hshort
      refine ⟨hcounts, ?_⟩
      rw [Bool.not_not]
      exact Nat.lt_of_not_le hshort

end

theorem tracks_nil (hpos : ∀ v, 1 ≤ threshold config v) : Tracks config [] (⟨0, 0⟩, true) :=
  tracks_iff.2 ⟨counted_nil hpos true, rfl⟩

/-- The automaton leaves the state for a flag when the run of results against it is at the threshold. -/
theorem next_of_flag (config : HealthCheckConfig) (recent : List HealthCheckResult) (v : Bool) :
    (if v then HealthState.healthy else .unhealthy).next config.unhealthyThreshold.toNat config.healthyThreshold.toNat
        recent =
      if (if (threshold config (!v)).toNat ≤ trail (resultFor (!v)) recent then !v else v) then .healthy
      else .unhealthy := by
  simp only [le_trail_iff]
  cases v
  · simp only [HealthState.next, threshold, resultFor, Bool.not_false]
    split <;> simp_all
  · simp only [HealthState.next, threshold, resultFor, Bool.not_true]
    split <;> simp_all

theorem tracks_step (hpos : ∀ v, 1 ≤ threshold config v) {recent : List HealthCheckResult}
    {own : BackendStatus × Bool} (h : Tracks config recent own) (result : HealthCheckResult) :
    Tracks config (result :: recent) (ownUpdate config result own) := by
  obtain ⟨hcounted, hstate⟩ := tracks_iff.1 h
  obtain ⟨v, rfl⟩ := exists_resultFor result
  refine tracks_iff.2 ⟨hcounted.step hpos v, ?_⟩
  obtain ⟨status, flag⟩ := own
  rw [automaton, hstate, next_of_flag]
  rcases Bool.eq_or_eq_not flag v with rfl | rfl
  · have hbelow := (hcounted.step hpos flag).below
    rw [ownUpdate_self hpos] at hbelow ⊢
    rw [if_neg (Nat.not_le_of_lt hbelow)]
  · rw [ownUpdate_other hpos hcounted, Bool.not_not]

/-! ## The checker's state, backend by backend -/

/-- The part of the checker's state that belongs to one backend. -/
def HealthChecker.own (s : HealthChecker) (b : Backend) : BackendStatus × Bool :=
  (s.status b.addr, b.getHealth s.pool.mem)

/-- A step that leaves the backends as they are and the cache in sync, updates what belongs to `b` by
`f` and changes nothing that belongs to another backend. -/
structure Settles (s s' : HealthChecker) (b : Backend) (f : BackendStatus × Bool → BackendStatus × Bool) :
    Prop where
  backends : s'.pool.backends = s.pool.backends
  synced : s.pool.Synced → s'.pool.Synced
  self : s'.own b = f (s.own b)
  other : ∀ c ∈ s.pool.backends, c ≠ b → s'.own c = s.own c

theorem Settles.trans {s s' s'' : HealthChecker} {b : Backend} {f g : BackendStatus × Bool → BackendStatus × Bool}
    (h : Settles s s' b f) (h' : Settles s' s'' b g) : Settles s s'' b (g ∘ f) :=
  ⟨h'.backends.trans h.backends, fun hs => h'.synced (h.synced hs), by rw [h'.self, h.self, Function.comp],
    fun c hc hne => (h'.other c (h.backends ▸ hc) hne).trans (h.other c hc hne)⟩

/-- A threshold check whose flag is set already leaves it. -/
theorem flag_unmoved {reached v flag : Bool} (h : ¬(reached = true ∧ flag = !v)) :
    (if reached then v else flag) = flag := by
  split
  · rename_i hreached
    exact (Bool.not_eq_not.1 fun e => h ⟨hreached, e⟩).symm
  · rfl

section

variable (s : HealthChecker) (hn : (s.pool.backends.map (·.addr)).Nodup) {b : Backend} (hb : b ∈ s.pool.backends)
include hn hb

theorem settles_count (status : BackendStatus) :
    Settles s (s.count b.addr status) b fun own => (status, own.2) := by
  refine ⟨rfl, id, ?_, fun c hc hne => ?_⟩
  · simp [HealthChecker.own, HealthChecker.status, HealthChecker.count]
  · have haddr : c.addr ≠ b.addr := fun e => hne (List.inj_on_of_nodup_map hn hc hb e)
    simp [HealthChecker.own, HealthChecker.status, HealthChecker.count, haddr]

/-- A threshold check sets the flag when the threshold is reached: either the flag has that value
already, or the backend is marked. -/
theorem settles_transition (reached healthy : Bool) :
    Settles s (s.transition b.addr reached healthy) b fun own => (own.1, if reached then healthy else own.2) := by
  have hmark : (if healthy then s.pool.markHealthyByAddr b.addr else s.pool.markUnhealthyByAddr b.addr) =
      s.pool.mark (some b) healthy := by
    rw [← find?_addr_of_nodup hn hb]
    cases healthy <;> rfl
  unfold HealthChecker.transition
  rw [getHealthByAddr_of_nodup hn hb, hmark]
  by_cases hr : reached = true ∧ b.getHealth s.pool.mem = !healthy
  · obtain ⟨rfl, hflag⟩ := hr
    rw [if_pos (by simp [hflag])]
    refine ⟨s.pool.mark_backends _ _, fun h => s.pool.mark_synced h _ _, ?_, fun c hc hne => ?_⟩
    · simp only [HealthChecker.own, s.pool.getHealth_mark hb hb, if_true]
      rfl
    · simp only [HealthChecker.own, s.pool.getHealth_mark hb hc, if_neg hne]
      rfl
  · rw [if_neg (by simpa using hr)]
    refine ⟨rfl, id, ?_, fun _ _ _ => rfl⟩
    simp only [HealthChecker.own, flag_unmoved hr]

/-- Joining a result of `b` updates what belongs to `b` and nothing else. -/
theorem settles_applyResult (config : HealthCheckConfig) (result : HealthCheckResult) :
    Settles s (applyResult config s b.addr result) b (ownUpdate config result) := by
  let status := (s.status b.addr).update result
  have hcount := settles_count s hn hb status
  have hfail := settles_transition (s.count b.addr status) hn hb
    (status.consecutiveFailures ≥ config.unhealthyThreshold) false
  have hsucc := settles_transition _ (hfail.backends ▸ hn) (hfail.backends ▸ hb)
    (status.consecutiveSuccesses ≥ config.healthyThreshold) true
  have h := (hcount.trans hfail).trans hsucc
  refine ⟨h.backends, h.synced, h.self.trans ?_, h.other⟩
  simp only [Function.comp, ownUpdate, decide_eq_true_eq]
  rfl

end

/-! ## One tick -/

/-- The checker works on the backends `bs` and its cache is in sync. -/
structure Checks (bs : List Backend) (s : HealthChecker) : Prop where
  backends : s.pool.backends = bs
  synced : s.pool.Synced

theorem prune_own {s : HealthChecker} {b : Backend} (hb : b ∈ s.pool.backends) : (prune s).own b = s.own b := by
  have haddr : b.addr ∈ s.pool.allBackends.map (·.addr) := List.mem_map_of_mem hb
  simp only [HealthChecker.own, HealthChecker.status, prune, if_pos haddr]

/-- Without a `JoinError` every spawned check is joined and counted. -/
theorem joinAll_eq_foldl (config : HealthCheckConfig) (outcome : Backend → Option HealthCheckResult) :
    ∀ (bs : List Backend) (s : HealthChecker), (∀ b ∈ bs, (outcome b).isSome) →
      joinAll config s (bs.map fun b => (outcome b).map fun result => (b.addr, result)) =
        bs.foldl (fun s b => applyResult config s b.addr ((outcome b).getD .healthy)) s
  | [], _, _ => rfl
  | b :: bs, s, h => by
    obtain ⟨result, hr⟩ := Option.isSome_iff_exists.1 (h b (by simp))
    simp only [List.map_cons, List.foldl_cons, hr, Option.map_some, Option.getD_some, joinAll]
    exact joinAll_eq_foldl config outcome bs _ fun c hc => h c (List.mem_cons_of_mem b hc)

/-- While `I` holds, joining a result of a backend updates what the checker keeps of that backend, its `part`,
and nothing of another backend's part. The end of a tick changes no part. -/
structure Kept (config : HealthCheckConfig) (bs : List Backend) (I : HealthChecker → Prop) {π : Type}
    (part : Backend → HealthChecker → π) (upd : HealthCheckResult → π → π) : Prop where
  joins : ∀ s b result, b ∈ bs → I s → I (applyResult config s b.addr result)
  self : ∀ s b result, b ∈ bs → I s → part b (applyResult config s b.addr result) = upd result (part b s)
  other : ∀ s b result c, b ∈ bs → c ∈ bs → I s → b ≠ c → part c (applyResult config s b.addr result) = part c s
  prunes : ∀ s, I s → I (prune s)
  pruned : ∀ s b, b ∈ bs → I s → part b (prune s) = part b s

section

variable {config : HealthCheckConfig} {bs : List Backend} {I : HealthChecker → Prop} {π : Type}
  {part : Backend → HealthChecker → π} {upd : HealthCheckResult → π → π}

/-- A tick updates each backend's part by that backend's result, in whatever order the checks are joined. -/
theorem Kept.after_tick (h : Kept config bs I part upd) (hnodup : bs.Nodup) {s : HealthChecker} (hs : I s) (t : Tick bs)
    (hjoin : ∀ b ∈ bs, (t.outcome b).isSome) :
    I (tick config s t).2 ∧
      ∀ b ∈ bs, part b (tick config s t).2 = upd ((t.outcome b).getD .healthy) (part b s) := by
  have hmem : ∀ b, b ∈ t.joined ↔ b ∈ bs := fun b => t.order.mem_iff
  have hjoined := joinAll_eq_foldl config t.outcome t.joined s fun b hb => hjoin b ((hmem b).1 hb)
  set f := fun s b => applyResult config s b.addr ((t.outcome b).getD .healthy)
  have hfold : I (t.joined.foldl f s) :=
    List.foldlRecOn t.joined f hs fun s hs b hb => h.joins s b _ ((hmem b).1 hb) hs
  have htick : (tick config s t).2 = prune (t.joined.foldl f s) := congrArg prune hjoined
  rw [htick]
  refine ⟨h.prunes _ hfold, fun b hb => ?_⟩
  rw [h.pruned _ b hb hfold]
  -- each join updates its own backend's part, so the joins may come in any order
  exact (foldl_own part (fun b => upd ((t.outcome b).getD .healthy)) (fun s b hb hs => h.joins s b _ hb hs)
    (fun s b hb hs => h.self s b _ hb hs) (fun s b c hb hc hs hne => h.other s b _ c hb hc hs hne) hb t.joined s
    (t.order.nodup_iff.2 hnodup) (fun b hb => (hmem b).1 hb) hs).1 ((hmem b).2 hb)

end

theorem kept_own (config : HealthCheckConfig) {bs : List Backend} (hn : (bs.map (·.addr)).Nodup) :
    Kept config bs (Checks bs) (fun b s => s.own b) (ownUpdate config) := by
  have hsettles : ∀ s b result, b ∈ bs → Checks bs s →
      Settles s (applyResult config s b.addr result) b (ownUpdate config result) :=
    fun s b result hb hs => settles_applyResult s (hs.backends ▸ hn) (hs.backends ▸ hb) config result
  refine ⟨fun s b result hb hs => ?_, fun s b result hb hs => (hsettles s b result hb hs).self,
    fun s b result c hb hc hs hne => (hsettles s b result hb hs).other c (hs.backends.symm ▸ hc) hne.symm,
    fun s hs => ⟨hs.backends, hs.synced⟩, fun s b hb hs => prune_own (hs.backends.symm ▸ hb)⟩
  have h := hsettles s b result hb hs
  exact ⟨h.backends.trans hs.backends, h.synced hs.synced⟩

theorem tick_own (config : HealthCheckConfig) {bs : List Backend} (hnodup : bs.Nodup)
    (hn : (bs.map (·.addr)).Nodup) {s : HealthChecker} (hs : Checks bs s) (t : Tick bs)
    (hjoin : ∀ b ∈ bs, (t.outcome b).isSome) :
    Checks bs (tick config s t).2 ∧
      ∀ b ∈ bs, (tick config s t).2.own b = ownUpdate config ((t.outcome b).getD .healthy) (s.own b) :=
  (kept_own config hn).after_tick hnodup hs t hjoin

/-! ## Every run -/

theorem history_concat {bs : List Backend} (ticks : List (Tick bs)) (t : Tick bs) {b : Backend}
    (h : (t.outcome b).isSome) : history (ticks ++ [t]) b = (t.outcome b).getD .healthy :: history ticks b := by
  obtain ⟨result, hr⟩ := Option.isSome_iff_exists.1 h
  simp [history, List.filterMap_append, hr]

/-- What every result preserves between a backend's results so far and its part holds after any number of
ticks. -/
theorem Kept.after_ticks {config : HealthCheckConfig} {bs : List Backend} {I : HealthChecker → Prop} {π : Type}
    {part : Backend → HealthChecker → π} {upd : HealthCheckResult → π → π} (h : Kept config bs I part upd)
    (hnodup : bs.Nodup) {R : Backend → List HealthCheckResult → π → Prop}
    (hstep : ∀ b recent p result, R b recent p → R b (result :: recent) (upd result p)) {s : HealthChecker} (hs : I s)
    (hstart : ∀ b ∈ bs, R b [] (part b s)) (ticks : List (Tick bs))
    (hjoin : ∀ t ∈ ticks, ∀ b ∈ bs, (t.outcome b).isSome) :
    I (run (tick config) s ticks).2 ∧ ∀ b ∈ bs, R b (history ticks b) (part b (run (tick config) s ticks).2) := by
  -- from the last tick back, as the histories have the newest result first
  induction ticks using List.reverseRecOn with
  | nil => exact ⟨hs, hstart⟩
  | append_singleton ticks t ih =>
    obtain ⟨hI, hR⟩ := ih fun u hu => hjoin u (List.mem_append_left _ hu)
    have ht := hjoin t (by simp)
    obtain ⟨hI', hpart⟩ := h.after_tick hnodup hI t ht
    rw [run_append, run_cons, run_nil]
    refine ⟨hI', fun b hb => ?_⟩
    rw [history_concat ticks t (ht b hb), hpart b hb]
    exact hstep b _ _ _ (hR b hb)

/-- After any number of ticks the pool's own state is what the automaton says, backend by backend. -/
structure Follows (config : HealthCheckConfig) {bs : List Backend} (ticks : List (Tick bs)) (s : HealthChecker) :
    Prop where
  checks : Checks bs s
  tracks : ∀ b ∈ bs, Tracks config (history ticks b) (s.own b)

theorem follows_run {config : HealthCheckConfig} (hu : 1 ≤ config.unhealthyThreshold)
    (hh : 1 ≤ config.healthyThreshold) {bs : List Backend} (hnodup : bs.Nodup) (hn : (bs.map (·.addr)).Nodup)
    {s : HealthChecker} (hs : Follows config ([] : List (Tick bs)) s) (ticks : List (Tick bs))
    (hjoin : ∀ t ∈ ticks, ∀ b ∈ bs, (t.outcome b).isSome) :
    Follows config ticks (run (tick config) s ticks).2 := by
  obtain ⟨hchecks, htracks⟩ := (kept_own config hn).after_ticks hnodup (R := fun _ => Tracks config)
    (fun _ _ _ result h => tracks_step (threshold_pos hu hh) h result) hs.checks hs.tracks ticks hjoin
  exact ⟨hchecks, htracks⟩

/-- The flags and the healthy list are the automaton's: `HealthChecker::run` on a fresh pool with
distinct addresses, thresholds of 1 or more and no panicking check. -/
theorem health_eq_automaton (config : HealthCheckConfig) (hu : 1 ≤ config.unhealthyThreshold)
    (hh : 1 ≤ config.healthyThreshold) (pool : BackendPool) (hf : pool.Fresh)
    (hn : (pool.allBackends.map (·.addr)).Nodup) (metrics : GunghoMetrics) (ticks : List (Tick pool.allBackends))
    (hjoin : ∀ t ∈ ticks, ∀ b ∈ pool.allBackends, (t.outcome b).isSome) :
    let s := (run (tick config) (.start pool metrics) ticks).2
    let state := fun b => automaton config.unhealthyThreshold.toNat config.healthyThreshold.toNat (history ticks b)
    (∀ b ∈ pool.allBackends, b.getHealth s.pool.mem = (state b = .healthy : Bool)) ∧
      s.pool.healthyBackends = pool.allBackends.filter (state · = .healthy) := by
  intro s state
  have hstart : Follows config ([] : List (Tick pool.allBackends)) (.start pool metrics) := by
    refine ⟨⟨rfl, hf.synced⟩, fun b hb => ?_⟩
    have hown : (HealthChecker.start pool metrics).own b = (⟨0, 0⟩, true) := Prod.ext rfl (hf.healthy b hb)
    rw [hown]
    exact tracks_nil (threshold_pos hu hh)
  have hrun := follows_run hu hh pool.backends_nodup hn hstart ticks hjoin
  have hflag : ∀ b ∈ pool.allBackends, b.getHealth s.pool.mem = (state b = .healthy : Bool) := by
    intro b hb
    have hstate : state b = if b.getHealth s.pool.mem then .healthy else .unhealthy := (hrun.tracks b hb).state
    rw [hstate]
    cases b.getHealth s.pool.mem <;> rfl
  have hback : s.pool.backends = pool.allBackends := hrun.checks.backends
  have hsync : s.pool.healthyBackends = s.pool.backends.filter (·.getHealth s.pool.mem) := hrun.checks.synced
  rw [hsync, hback]
  exact ⟨hflag, List.filter_congr hflag⟩

/-- The first backend fails two checks in a row, joined first in one tick and last in the other. -/
theorem health_eq_automaton_pair :
    let config : HealthCheckConfig := { unhealthyThreshold := 2 }
    let outcome : Backend → Option HealthCheckResult := fun b => some (if b.id = 0 then .unhealthy else .healthy)
    let ticks : List (Tick BackendPool.pair.allBackends) :=
      [⟨outcome, BackendPool.pair.backends, .refl _⟩, ⟨outcome, BackendPool.pair.backends.reverse, by decide⟩]
    (run (tick config) (.start .pair .new) ticks).2.pool.healthyBackends = [⟨1, .v4 ⟨10, 0, 0, 2⟩ 80, 1⟩] := by
  intro config outcome ticks
  have hjoin : ∀ t ∈ ticks, ∀ b ∈ BackendPool.pair.allBackends, (t.outcome b).isSome := by
    simp [ticks, outcome]
  exact (health_eq_automaton config (by decide) (by decide) .pair ⟨by decide, rfl⟩ (by decide) .new ticks
    hjoin).2.trans (by decide)

end Gungho.Health
