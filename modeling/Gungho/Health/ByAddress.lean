/-
The health checker on any pool. Two spellings of one address pass `Config::validate`, so an address
may have several backends, and a check task may panic. A result counts for its address and moves the
first backend of that address, which the by-address operations reach; the others keep their flag. So
the flag of the first backend of an address is the documented automaton's verdict on the results applied
to the address, and a backend behind another of its address is never marked.
-/
import Gungho.Health.Automaton
import Gungho.Health.JoinErrors

namespace Gungho.Health

open Gungho.Lib Gungho.Net Gungho.Pool

/-! ## The verdict on an address -/

/-- The backend that the by-address operations reach for its address. -/
def IsFirst (bs : List Backend) (b : Backend) : Prop := bs.find? (·.addr = b.addr) = some b

instance (bs : List Backend) (b : Backend) : Decidable (IsFirst bs b) :=
  inferInstanceAs (Decidable (bs.find? (·.addr = b.addr) = some b))

/-- The results for one address among those joined so far; both are newest first. -/
def resultsFor (addr : SocketAddr) (joined : List (SocketAddr × HealthCheckResult)) : List HealthCheckResult :=
  joined.filterMap fun r => if r.1 = addr then some r.2 else none

/-- Whether the documented automaton holds the backend healthy on the results joined for its address. -/
def verdict (config : HealthCheckConfig) (joined : List (SocketAddr × HealthCheckResult)) (b : Backend) : Bool :=
  automaton config.unhealthyThreshold.toNat config.healthyThreshold.toNat (resultsFor b.addr joined) = .healthy

/-- Whether the backend is in rotation after the results joined so far: the first backend of its address is if the
automaton holds it healthy; one behind another of its address is in any case, as no by-address operation reaches it. -/
def inRotation (config : HealthCheckConfig) (bs : List Backend) (joined : List (SocketAddr × HealthCheckResult))
    (b : Backend) : Bool :=
  IsFirst bs b → verdict config joined b = true

theorem inRotation_first {config : HealthCheckConfig} {bs : List Backend} {b : Backend} (hb : IsFirst bs b)
    (joined : List (SocketAddr × HealthCheckResult)) : inRotation config bs joined b = verdict config joined b := by
  simp [inRotation, hb]

theorem inRotation_behind {config : HealthCheckConfig} {bs : List Backend} {b : Backend} (hb : ¬ IsFirst bs b)
    (joined : List (SocketAddr × HealthCheckResult)) : inRotation config bs joined b = true := by
  simp [inRotation, hb]

/-- Where the addresses are distinct the backends in rotation are those that the automaton holds healthy. -/
theorem filter_inRotation {bs : List Backend} (hn : (bs.map (·.addr)).Nodup) (config : HealthCheckConfig)
    (joined : List (SocketAddr × HealthCheckResult)) :
    bs.filter (inRotation config bs joined) = bs.filter (verdict config joined) :=
  List.filter_congr fun _ hb => inRotation_first (find?_addr_of_nodup hn hb) joined

theorem resultsFor_self (addr : SocketAddr) (result : HealthCheckResult)
    (joined : List (SocketAddr × HealthCheckResult)) :
    resultsFor addr ((addr, result) :: joined) = result :: resultsFor addr joined := by
  simp [resultsFor]

theorem resultsFor_ne {addr a : SocketAddr} (h : a ≠ addr) (result : HealthCheckResult)
    (joined : List (SocketAddr × HealthCheckResult)) :
    resultsFor addr ((a, result) :: joined) = resultsFor addr joined := by
  simp [resultsFor, h]

theorem IsFirst.mem {bs : List Backend} {b : Backend} (h : IsFirst bs b) : b ∈ bs := List.mem_of_find?_eq_some h

theorem IsFirst.eq {bs : List Backend} {b c : Backend} (hb : IsFirst bs b) (hc : IsFirst bs c) (h : b.addr = c.addr) :
    b = c := by
  unfold IsFirst at hb hc
  rw [h, hc] at hb
  exact (Option.some.inj hb).symm

/-- Every address of the pool has a first backend. -/
theorem exists_isFirst {bs : List Backend} {addr : SocketAddr} (h : addr ∈ bs.map (·.addr)) :
    ∃ b, IsFirst bs b ∧ b.addr = addr := by
  obtain ⟨c, hc, rfl⟩ := List.mem_map.1 h
  obtain ⟨b, hb⟩ := Option.isSome_iff_exists.1 (List.find?_isSome (p := (·.addr = c.addr)).2 ⟨c, hc, by simp⟩)
  have haddr : b.addr = c.addr := by simpa using List.find?_some hb
  exact ⟨b, by rw [IsFirst, haddr]; exact hb, haddr⟩

/-! ## One result -/

/-- A step for the address of `b` that updates the counters of the address and the flag of `b` by `f` and changes no
other counter and no other flag. -/
structure Reaches (s s' : HealthChecker) (b : Backend) (f : BackendStatus × Bool → BackendStatus × Bool) :
    Prop where
  backends : s'.pool.backends = s.pool.backends
  synced : s.pool.Synced → s'.pool.Synced
  self : s'.own b = f (s.own b)
  flags : ∀ c ∈ s.pool.backends, c ≠ b → c.getHealth s'.pool.mem = c.getHealth s.pool.mem
  counters : ∀ a, a ≠ b.addr → s'.statusMap a = s.statusMap a

theorem Reaches.trans {s s' s'' : HealthChecker} {b : Backend} {f g : BackendStatus × Bool → BackendStatus × Bool}
    (h : Reaches s s' b f) (h' : Reaches s' s'' b g) : Reaches s s'' b (g ∘ f) := by
  refine ⟨h'.backends.trans h.backends, fun hs => h'.synced (h.synced hs), ?_, fun c hc hne => ?_, fun a ha => ?_⟩
  · rw [h'.self, h.self, Function.comp]
  · rw [h'.flags c (h.backends ▸ hc) hne, h.flags c hc hne]
  · rw [h'.counters a ha, h.counters a ha]

section

variable (s : HealthChecker) {b : Backend} (hb : IsFirst s.pool.backends b)

theorem reaches_count (status : BackendStatus) :
    Reaches s (s.count b.addr status) b fun own => (status, own.2) := by
  refine ⟨rfl, id, ?_, fun _ _ _ => rfl, fun a ha => if_neg ha⟩
  simp [HealthChecker.own, HealthChecker.status, HealthChecker.count]

include hb

theorem getHealthByAddr_first : s.pool.getHealthByAddr b.addr = some (b.getHealth s.pool.mem) := by
  unfold BackendPool.getHealthByAddr
  rw [show s.pool.backends.find? (·.addr = b.addr) = some b from hb, Option.map_some]

theorem markByAddr_first (healthy : Bool) :
    (if healthy then s.pool.markHealthyByAddr b.addr else s.pool.markUnhealthyByAddr b.addr) =
      s.pool.mark (some b) healthy := by
  rw [← show s.pool.backends.find? (·.addr = b.addr) = some b from hb]
  cases healthy <;> rfl

theorem reaches_transition (reached healthy : Bool) :
    Reaches s (s.transition b.addr reached healthy) b fun own => (own.1, if reached then healthy else own.2) := by
  unfold HealthChecker.transition
  rw [getHealthByAddr_first s hb, markByAddr_first s hb]
  by_cases hr : reached = true ∧ b.getHealth s.pool.mem = !healthy
  · obtain ⟨rfl, hflag⟩ := hr
    rw [if_pos (by simp [hflag])]
    refine ⟨s.pool.mark_backends _ _, fun h => s.pool.mark_synced h _ _, ?_, fun c hc hne => ?_, fun _ _ => rfl⟩
    · simp only [HealthChecker.own, s.pool.getHealth_mark hb.mem hb.mem, if_true]
      rfl
    · simp only [s.pool.getHealth_mark hb.mem hc, if_neg hne]
  · rw [if_neg (by simpa using hr)]
    refine ⟨rfl, id, ?_, fun _ _ _ => rfl, fun _ _ => rfl⟩
    simp only [HealthChecker.own, flag_unmoved hr]

/-- Joining a result for the address of `b`, whichever backend's task it comes from. -/
theorem reaches_applyResult (config : HealthCheckConfig) (result : HealthCheckResult) :
    Reaches s (applyResult config s b.addr result) b (ownUpdate config result) := by
  let status := (s.status b.addr).update result
  have hcount := reaches_count s (b := b) status
  have hfail := reaches_transition (s.count b.addr status) hb
    (status.consecutiveFailures ≥ config.unhealthyThreshold) false
  have hsucc := reaches_transition _ (hfail.backends.symm ▸ hb)
    (status.consecutiveSuccesses ≥ config.healthyThreshold) true
  have h := (hcount.trans hfail).trans hsucc
  refine ⟨h.backends, h.synced, h.self.trans ?_, h.flags, h.counters⟩
  simp only [Function.comp, ownUpdate, decide_eq_true_eq]
  rfl

end

/-! ## Any number of results -/

/-- The checker after it has applied the results one after the other; the list is newest first. -/
def HealthChecker.afterResults (config : HealthCheckConfig) (s : HealthChecker)
    (joined : List (SocketAddr × HealthCheckResult)) : HealthChecker :=
  joined.foldr (fun r s => applyResult config s r.1 r.2) s

/-- The checker's state after the results `joined`: the first backend of each address has their automaton's state and
counters, the others are as they were, and only addresses of the pool have counters. -/
structure Watched (config : HealthCheckConfig) (bs : List Backend) (joined : List (SocketAddr × HealthCheckResult))
    (s : HealthChecker) : Prop where
  backends : s.pool.backends = bs
  synced : s.pool.Synced
  first : ∀ b, IsFirst bs b → Tracks config (resultsFor b.addr joined) (s.own b)
  shadowed : ∀ b ∈ bs, ¬ IsFirst bs b → b.getHealth s.pool.mem = true
  known : ∀ a, s.statusMap a ≠ none → a ∈ bs.map (·.addr)

section

variable {config : HealthCheckConfig} {bs : List Backend}

theorem watched_start (hpos : ∀ v, 1 ≤ threshold config v) {pool : BackendPool} (hf : pool.Fresh)
    (metrics : GunghoMetrics) : Watched config pool.backends [] (.start pool metrics) := by
  refine ⟨rfl, hf.synced, fun b hb => ?_, fun b hb _ => hf.healthy b hb, fun a ha => absurd rfl ha⟩
  have hown : (HealthChecker.start pool metrics).own b = (⟨0, 0⟩, true) := Prod.ext rfl (hf.healthy b hb.mem)
  rw [hown]
  exact tracks_nil hpos

theorem Watched.step (hpos : ∀ v, 1 ≤ threshold config v) {joined : List (SocketAddr × HealthCheckResult)}
    {s : HealthChecker} (h : Watched config bs joined s) {addr : SocketAddr} (haddr : addr ∈ bs.map (·.addr))
    (result : HealthCheckResult) :
    Watched config bs ((addr, result) :: joined) (applyResult config s addr result) := by
  obtain ⟨b, hb, rfl⟩ := exists_isFirst haddr
  have hr := reaches_applyResult s (h.backends.symm ▸ hb) config result
  refine ⟨hr.backends.trans h.backends, hr.synced h.synced, fun c hc => ?_, fun c hc hcf => ?_, fun a ha => ?_⟩
  · by_cases hcb : c = b
    · subst hcb
      rw [resultsFor_self, hr.self]
      exact tracks_step hpos (h.first c hc) result
    · -- another first backend has another address
      have hne : c.addr ≠ b.addr := fun e => hcb (hc.eq hb e)
      have hown : (applyResult config s b.addr result).own c = s.own c :=
        Prod.ext (by simp only [HealthChecker.own, HealthChecker.status, hr.counters c.addr hne])
          (hr.flags c (h.backends.symm ▸ hc.mem) hcb)
      rw [resultsFor_ne hne.symm, hown]
      exact h.first c hc
  · have hcb : c ≠ b := by
      rintro rfl
      exact hcf hb
    rw [hr.flags c (h.backends.symm ▸ hc) hcb]
    exact h.shadowed c hc hcf
  · by_cases hab : a = b.addr
    · exact hab ▸ haddr
    · rw [hr.counters a hab] at ha
      exact h.known a ha

theorem watched_after (hpos : ∀ v, 1 ≤ threshold config v) {s : HealthChecker}
    {earlier : List (SocketAddr × HealthCheckResult)} (h : Watched config bs earlier s)
    {joined : List (SocketAddr × HealthCheckResult)} (hj : ∀ r ∈ joined, r.1 ∈ bs.map (·.addr)) :
    Watched config bs (joined ++ earlier) (s.afterResults config joined) := by
  induction joined with
  | nil => exact h
  | cons r joined ih =>
    have ih := ih fun r' hr' => hj r' (List.mem_cons_of_mem r hr')
    exact ih.step hpos (hj r (by simp)) r.2

/-- The flags say who is in rotation and the healthy list follows. -/
theorem Watched.flags {joined : List (SocketAddr × HealthCheckResult)} {s : HealthChecker}
    (h : Watched config bs joined s) :
    (∀ b ∈ bs, b.getHealth s.pool.mem = inRotation config bs joined b) ∧
      s.pool.healthyBackends = bs.filter (inRotation config bs joined) := by
  have hflag : ∀ b ∈ bs, b.getHealth s.pool.mem = inRotation config bs joined b := by
    intro b hb
    by_cases hbf : IsFirst bs b
    · have hstate : automaton config.unhealthyThreshold.toNat config.healthyThreshold.toNat (resultsFor b.addr joined) =
        if b.getHealth s.pool.mem then .healthy else .unhealthy := (h.first b hbf).state
      rw [inRotation_first hbf, verdict, hstate]
      cases b.getHealth s.pool.mem <;> rfl
    · rw [h.shadowed b hb hbf, inRotation_behind hbf]
  have hsync : s.pool.healthyBackends = s.pool.backends.filter (·.getHealth s.pool.mem) := h.synced
  rw [hsync, h.backends]
  exact ⟨hflag, List.filter_congr hflag⟩

theorem Watched.prune_eq {joined : List (SocketAddr × HealthCheckResult)} {s : HealthChecker}
    (h : Watched config bs joined s) : prune s = s := by
  have hmap : (prune s).statusMap = s.statusMap := by
    funext a
    simp only [prune, BackendPool.allBackends, h.backends, ite_eq_left_iff]
    intro ha
    by_contra hne
    exact ha (h.known a (Ne.symm hne))
  calc prune s = { s with statusMap := (prune s).statusMap } := rfl
    _ = s := by rw [hmap]

end

/-! ## Every run -/

/-- The results that the ticks apply, newest first. -/
def heard {bs : List Backend} (ticks : List (Tick bs)) : List (SocketAddr × HealthCheckResult) :=
  (ticks.flatMap fun t => applied t.results).reverse

theorem mem_of_mem_applied {r : SocketAddr × HealthCheckResult}
    {results : List (Option (SocketAddr × HealthCheckResult))} (h : r ∈ applied results) : some r ∈ results := by
  induction results with
  | nil => cases h
  | cons r' rest ih =>
    rcases r' with _ | r'
    · cases h
    · rw [applied_some, List.mem_cons] at h
      rcases h with rfl | h
      · exact List.mem_cons_self
      · exact List.mem_cons_of_mem _ (ih h)

/-- A check task returns the address it was spawned for. -/
theorem addr_of_applied {bs : List Backend} {t : Tick bs} {r : SocketAddr × HealthCheckResult}
    (h : r ∈ applied t.results) : r.1 ∈ bs.map (·.addr) := by
  obtain ⟨b, hb, hr⟩ := List.mem_map.1 (mem_of_mem_applied h)
  obtain ⟨result, -, rfl⟩ := Option.map_eq_some_iff.1 hr
  exact List.mem_map_of_mem (t.order.mem_iff.1 hb)

theorem watched_run {config : HealthCheckConfig} (hpos : ∀ v, 1 ≤ threshold config v) {bs : List Backend}
    {s : HealthChecker} (hs : Watched config bs [] s) (ticks : List (Tick bs)) :
    Watched config bs (heard ticks) (run (tick config) s ticks).2 := by
  induction ticks using List.reverseRecOn with
  | nil => exact hs
  | append_singleton ticks t ih =>
    let s' := (run (tick config) s ticks).2
    have hafter : Watched config bs ((applied t.results).reverse ++ heard ticks)
        (s'.afterResults config (applied t.results).reverse) :=
      watched_after hpos ih fun r hr => addr_of_applied (List.mem_reverse.1 hr)
    have htick : (tick config s' t).2 = prune (s'.afterResults config (applied t.results).reverse) := by
      unfold HealthChecker.afterResults
      rw [List.foldr_reverse]
      exact congrArg prune ((joinAll_eq_joinLoop config s' t.results).trans (joinLoop_eq_foldl ..))
    have hheard : heard (ticks ++ [t]) = (applied t.results).reverse ++ heard ticks := by
      simp [heard, List.flatMap_append]
    rw [run_append, run_cons, run_nil, hheard]
    show Watched config bs _ (tick config s' t).2
    rw [htick, hafter.prune_eq]
    exact hafter

/-- `HealthChecker::run` on any fresh pool, whatever its addresses, with any results in any join order and any check
tasks panicking: the flag of the first backend of an address is the documented automaton's verdict on the results
applied to the address, a backend behind another of its address stays healthy, and the healthy list follows the
flags. -/
theorem health_eq_verdict (config : HealthCheckConfig) (hu : 1 ≤ config.unhealthyThreshold)
    (hh : 1 ≤ config.healthyThreshold) (pool : BackendPool) (hf : pool.Fresh) (metrics : GunghoMetrics)
    (ticks : List (Tick pool.allBackends)) :
    let s := (run (tick config) (.start pool metrics) ticks).2
    (∀ b ∈ pool.allBackends, b.getHealth s.pool.mem = inRotation config pool.allBackends (heard ticks) b) ∧
      s.pool.healthyBackends = pool.allBackends.filter (inRotation config pool.allBackends (heard ticks)) := by
  intro s
  exact (watched_run (threshold_pos hu hh) (watched_start (threshold_pos hu hh) hf metrics) ticks).flags

/-- Two spellings of one address and thresholds of 2: the failures of both tasks count for the address and one tick
takes the first of the two backends out of rotation; the second stays in it. -/
theorem health_eq_verdict_same_addr :
    let bs : List Backend := [⟨0, .v4 ⟨10, 0, 0, 1⟩ 80, 1⟩, ⟨1, .v4 ⟨10, 0, 0, 1⟩ 80, 1⟩]
    let pool : BackendPool := .new .init bs (by decide)
    let config : HealthCheckConfig := { unhealthyThreshold := 2 }
    let ticks : List (Tick pool.allBackends) := [⟨fun _ => some .unhealthy, bs, .refl _⟩]
    (run (tick config) (.start pool .new) ticks).2.pool.healthyBackends = [⟨1, .v4 ⟨10, 0, 0, 1⟩ 80, 1⟩] := by
  intro bs pool config ticks
  exact (health_eq_verdict config (by decide) (by decide) pool ⟨by decide, rfl⟩ .new ticks).2.trans (by decide)

end Gungho.Health
