/-
The `gungho_backend_health` gauge. The checker sets it only where it marks a backend, so a backend
has no series until its health changes for the first time, and from then on the series follows the
flag. The README has the gauge at 1 for a healthy backend and at 0 for an unhealthy one.
-/
import Gungho.Health.Automaton
import Gungho.Net.RoundTrip

namespace Gungho.Health

open Gungho.Lib Gungho.Net Gungho.Pool

/-! ## One result -/

/-- The value of a backend's series, if it has one. -/
def HealthChecker.gauge (s : HealthChecker) (b : Backend) : Option Int := s.metrics.backendHealth b.addr.toText

/-- What the checker keeps of one backend, its series included. -/
def HealthChecker.view (s : HealthChecker) (b : Backend) : (BackendStatus × Bool) × Option Int := (s.own b, s.gauge b)

/-- A result updates counters and flag, and sets the series if it changes the flag. -/
def viewUpdate (config : HealthCheckConfig) (result : HealthCheckResult) (view : (BackendStatus × Bool) × Option Int) :
    (BackendStatus × Bool) × Option Int :=
  let own := ownUpdate config result view.1
  (own, if own.2 = view.1.2 then view.2 else some own.2.toInt)

variable {config : HealthCheckConfig}

/-- Of the two threshold checks only that of the result's flag can succeed: the other counter is 0. -/
theorem applyResult_eq (hpos : ∀ v, 1 ≤ threshold config v) (s : HealthChecker) (addr : SocketAddr) (v : Bool) :
    applyResult config s addr (resultFor v) =
      (s.count addr ((s.status addr).update (resultFor v))).transition addr
        (threshold config v ≤ ((s.status addr).update (resultFor v)).counted v) v := by
  have hskip : ∀ (s : HealthChecker) (v : Bool),
      s.transition addr (decide (0 ≥ threshold config v)) v = s := fun s v => by
    have hzero : decide (0 ≥ threshold config v) = false := decide_eq_false (not_le_zero (hpos v))
    rw [HealthChecker.transition, hzero]
    rfl
  cases v with
  | true =>
    unfold applyResult
    exact congrArg (fun t : HealthChecker => t.transition addr _ true) (hskip _ false)
  | false => exact hskip _ true

section

variable (s : HealthChecker) (hn : (s.pool.backends.map (·.addr)).Nodup) {b : Backend} (hb : b ∈ s.pool.backends)
include hn hb

/-- A threshold check sets its backend's series when it changes the flag, and the series of no other label. -/
theorem gauge_transition (reached v : Bool) :
    (s.transition b.addr reached v).gauge b =
        (if ((s.transition b.addr reached v).own b).2 = (s.own b).2 then s.gauge b
        else some ((s.transition b.addr reached v).own b).2.toInt) ∧
      ∀ c : Backend, c.addr.toText ≠ b.addr.toText → (s.transition b.addr reached v).gauge c = s.gauge c := by
  have hown : ((s.transition b.addr reached v).own b).2 = if reached then v else b.getHealth s.pool.mem :=
    congrArg Prod.snd (settles_transition s hn hb reached v).self
  have hflag : (s.own b).2 = b.getHealth s.pool.mem := rfl
  rw [hown, hflag]
  unfold HealthChecker.transition
  rw [getHealthByAddr_of_nodup hn hb]
  by_cases hmoves : reached = true ∧ b.getHealth s.pool.mem = !v
  · obtain ⟨rfl, hother⟩ := hmoves
    constructor
    · simp [HealthChecker.gauge, GunghoMetrics.setBackendHealth, hother]
    · intro c hlabel
      simp [HealthChecker.gauge, GunghoMetrics.setBackendHealth, hother, hlabel]
  · rw [if_pos (flag_unmoved hmoves), if_neg (by simpa using hmoves)]
    exact ⟨rfl, fun _ _ => rfl⟩

/-- A result of `b` updates the view of `b`, and the view of no backend with another label. -/
theorem view_applyResult (hpos : ∀ v, 1 ≤ threshold config v) (result : HealthCheckResult) :
    (applyResult config s b.addr result).view b = viewUpdate config result (s.view b) ∧
      ∀ c ∈ s.pool.backends, c ≠ b → c.addr.toText ≠ b.addr.toText →
        (applyResult config s b.addr result).view c = s.view c := by
  have hsettles := settles_applyResult s hn hb config result
  obtain ⟨hself, hother⟩ := gauge_transition (s.count b.addr ((s.status b.addr).update result)) hn hb
    (threshold config result.flag ≤ ((s.status b.addr).update result).counted result.flag) result.flag
  have happly := applyResult_eq hpos s b.addr result.flag
  rw [resultFor_flag] at happly
  rw [← happly, hsettles.self] at hself
  rw [← happly] at hother
  exact ⟨Prod.ext hsettles.self hself, fun c hc hne hlabel => Prod.ext (hsettles.other c hc hne) (hother c hlabel)⟩

end

theorem addrs_of_labels {bs : List Backend} (hlabels : (bs.map (·.addr.toText)).Nodup) : (bs.map (·.addr)).Nodup :=
  List.Nodup.of_map SocketAddr.toText (by rwa [List.map_map])

/-- The view of a backend follows its results when no two backends have the same label. -/
theorem kept_view (hpos : ∀ v, 1 ≤ threshold config v) {bs : List Backend} (hlabels : (bs.map (·.addr.toText)).Nodup) :
    Kept config bs (·.pool.backends = bs) (fun b s => s.view b) (viewUpdate config) := by
  have hn := addrs_of_labels hlabels
  have hview := fun (s : HealthChecker) b result (hb : b ∈ bs) (hs : s.pool.backends = bs) =>
    view_applyResult s (hs ▸ hn) (hs ▸ hb) hpos result
  refine ⟨fun s b result hb hs => ?_, fun s b result hb hs => (hview s b result hb hs).1,
    fun s b result c hb hc hs hne => ?_, fun s hs => hs, fun s b hb hs => ?_⟩
  · exact (settles_applyResult s (hs ▸ hn) (hs ▸ hb) config result).backends.trans hs
  · refine (hview s b result hb hs).2 c (hs ▸ hc) hne.symm fun hlabel => ?_
    exact hne (List.inj_on_of_nodup_map hlabels hb hc hlabel.symm)
  · exact Prod.ext (prune_own (hs ▸ hb)) rfl

/-! ## One backend over its results -/

/-- At some time the backend had the results in a row, against the flag it started with, that make the
checker set the other one. -/
def Turned (config : HealthCheckConfig) (flag : Bool) (recent : List HealthCheckResult) : Prop :=
  List.replicate (threshold config (!flag)).toNat (resultFor (!flag)) <:+: recent

/-- What the checker keeps of a backend that started with the flag and the series `start`: once the backend has
turned the series shows the flag; until then flag and series are those of the start. -/
structure Gauged (config : HealthCheckConfig) (start : Bool × Option Int) (recent : List HealthCheckResult)
    (view : (BackendStatus × Bool) × Option Int) : Prop where
  counted : Counted config recent view.1
  turned : Turned config start.1 recent → view.2 = some view.1.2.toInt
  still : ¬ Turned config start.1 recent → (view.1.2, view.2) = start

theorem not_turned_nil (hpos : ∀ v, 1 ≤ threshold config v) (flag : Bool) : ¬ Turned config flag [] := fun h => by
  have hlen := h.length_le
  have := one_le_toNat (hpos (!flag))
  rw [List.length_replicate, List.length_nil] at hlen
  omega

theorem gauged_nil (hpos : ∀ v, 1 ≤ threshold config v) (flag : Bool) (series : Option Int) :
    Gauged config (flag, series) [] ((⟨0, 0⟩, flag), series) :=
  ⟨counted_nil hpos flag, fun h => absurd h (not_turned_nil hpos flag), fun _ => rfl⟩

/-- A result turns a backend when it is the last of a long enough run against the start flag. -/
theorem turned_cons (hpos : ∀ v, 1 ≤ threshold config v) (flag v : Bool) (recent : List HealthCheckResult) :
    Turned config flag (resultFor v :: recent) ↔
      (flag = !v ∧ (threshold config v).toNat ≤ trail (resultFor v) (resultFor v :: recent)) ∨
        Turned config flag recent := by
  unfold Turned
  rw [replicate_infix_cons_iff]
  refine or_congr_left ?_
  rcases Bool.eq_or_eq_not flag v with rfl | rfl
  · have := one_le_toNat (hpos (!flag))
    rw [trail_cons_ne (resultFor_ne flag)]
    simp
    omega
  · rw [Bool.not_not]
    simp

theorem gauged_step (hpos : ∀ v, 1 ≤ threshold config v) {start : Bool × Option Int}
    {recent : List HealthCheckResult} {view : (BackendStatus × Bool) × Option Int}
    (h : Gauged config start recent view) (result : HealthCheckResult) :
    Gauged config start (result :: recent) (viewUpdate config result view) := by
  obtain ⟨v, rfl⟩ := exists_resultFor result
  obtain ⟨⟨status, flag⟩, gauge⟩ := view
  obtain ⟨hcounted, hturned, hstill⟩ := h
  simp only at hcounted hturned hstill
  have hcons := turned_cons hpos start.1 v recent
  have hflag : ¬ Turned config start.1 recent → flag = start.1 := fun hnot => congrArg Prod.fst (hstill hnot)
  have hcounted' := hcounted.step hpos v
  rcases Bool.eq_or_eq_not flag v with rfl | rfl
  · -- a result for the flag does not turn a backend that still has its start flag
    have hsame : Turned config start.1 (resultFor flag :: recent) → Turned config start.1 recent := fun h => by
      by_contra hnot
      rcases hcons.1 h with ⟨hother, -⟩ | h
      · exact absurd ((hflag hnot).trans hother) (by simp)
      · exact hnot h
    rw [ownUpdate_self hpos] at hcounted'
    rw [viewUpdate, ownUpdate_self hpos, if_pos rfl]
    exact ⟨hcounted', fun h => hturned (hsame h), fun h => hstill fun h' => h (hcons.2 (.inr h'))⟩
  · rw [ownUpdate_other hpos hcounted] at hcounted'
    rw [viewUpdate, ownUpdate_other hpos hcounted]
    by_cases hlong : (threshold config v).toNat ≤ trail (resultFor v) (resultFor v :: recent)
    · -- the run is long enough: a backend that had its start flag turns now
      have hnow : Turned config start.1 (resultFor v :: recent) := hcons.2 <| by
        by_cases hbefore : Turned config start.1 recent
        · exact .inr hbefore
        · exact .inl ⟨(hflag hbefore).symm, hlong⟩
      rw [if_pos hlong] at hcounted' ⊢
      rw [if_neg (by simp)]
      exact ⟨hcounted', fun _ => rfl, fun h => absurd hnow h⟩
    · have hsame : Turned config start.1 (resultFor v :: recent) → Turned config start.1 recent := fun h =>
        (hcons.1 h).resolve_left fun h => hlong h.2
      rw [if_neg hlong] at hcounted' ⊢
      rw [if_pos rfl]
      exact ⟨hcounted', fun h => hturned (hsame h), fun h => hstill fun h' => h (hcons.2 (.inr h'))⟩

/-- The series shows the flag when it did at the start or the backend has turned. -/
theorem Gauged.shows_iff {flag : Bool} {series : Option Int} {recent : List HealthCheckResult}
    {view : (BackendStatus × Bool) × Option Int} (h : Gauged config (flag, series) recent view) :
    view.2 = some view.1.2.toInt ↔ series = some flag.toInt ∨ Turned config flag recent := by
  by_cases hturned : Turned config flag recent
  · exact iff_of_true (h.turned hturned) (.inr hturned)
  · obtain ⟨rfl, rfl⟩ := Prod.mk.inj (h.still hturned)
    exact (or_iff_left hturned).symm

/-- One result turns a backend when the threshold is 1. -/
theorem turned_singleton (hpos : ∀ v, 1 ≤ threshold config v) (flag : Bool) (result : HealthCheckResult) :
    Turned config flag [result] ↔ threshold config (!flag) = 1 ∧ result = resultFor (!flag) := by
  obtain ⟨v, rfl⟩ := exists_resultFor result
  rw [turned_cons hpos, or_iff_left (not_turned_nil hpos flag), trail_cons_self, trail_nil]
  rcases Bool.eq_or_eq_not flag v with rfl | rfl
  · refine iff_of_false (fun h => ?_) fun h => resultFor_ne flag h.2
    exact absurd h.1 (by simp)
  · have := one_le_toNat (hpos v)
    have h1 : (1 : UInt32).toNat = 1 := rfl
    rw [Bool.not_not, ← UInt32.toNat_inj, h1]
    constructor
    · rintro ⟨-, hle⟩
      exact ⟨by omega, rfl⟩
    · rintro ⟨heq, -⟩
      exact ⟨rfl, by omega⟩

/-! ## Every run -/

theorem gauged_run (hpos : ∀ v, 1 ≤ threshold config v) {bs : List Backend}
    (hlabels : (bs.map (·.addr.toText)).Nodup) {start : Backend → Bool × Option Int} {s : HealthChecker}
    (hs : s.pool.backends = bs) (hstart : ∀ b ∈ bs, Gauged config (start b) [] (s.view b)) (ticks : List (Tick bs))
    (hjoin : ∀ t ∈ ticks, ∀ b ∈ bs, (t.outcome b).isSome) :
    (run (tick config) s ticks).2.pool.backends = bs ∧
      ∀ b ∈ bs, Gauged config (start b) (history ticks b) ((run (tick config) s ticks).2.view b) :=
  (kept_view hpos hlabels).after_ticks hlabels.of_map (R := fun b => Gauged config (start b))
    (fun _ _ _ result h => gauged_step hpos h result) hs hstart ticks hjoin

/-- Every backend has a series, at 1 if the pool reports the backend healthy and at 0 otherwise. -/
def Shows (s : HealthChecker) : Prop :=
  ∀ b ∈ s.pool.allBackends,
    s.metrics.backendHealth b.addr.toText = some (if s.pool.getHealthByAddr b.addr = some true then 1 else 0)

theorem shows_iff_view {s : HealthChecker} (hn : (s.pool.backends.map (·.addr)).Nodup) :
    Shows s ↔ ∀ b ∈ s.pool.backends, (s.view b).2 = some (s.view b).1.2.toInt := by
  refine forall₂_congr fun b hb => ?_
  rw [getHealthByAddr_of_nodup hn hb]
  have hvalue : (if some (b.getHealth s.pool.mem) = some true then 1 else 0) = (b.getHealth s.pool.mem).toInt := by
    cases b.getHealth s.pool.mem <;> rfl
  rw [hvalue]
  rfl

theorem history_cons {bs : List Backend} {t : Tick bs} {b : Backend} {result : HealthCheckResult}
    (h : t.outcome b = some result) (ticks : List (Tick bs)) :
    history (t :: ticks) b = history ticks b ++ [result] := by
  simp [history, h]

theorem shows_after_iff (hpos : ∀ v, 1 ≤ threshold config v) {pool : BackendPool}
    (hlabels : (pool.allBackends.map (·.addr.toText)).Nodup) (metrics : GunghoMetrics)
    (ticks : List (Tick pool.allBackends)) (hjoin : ∀ t ∈ ticks, ∀ b ∈ pool.allBackends, (t.outcome b).isSome) :
    Shows (run (tick config) (.start pool metrics) ticks).2 ↔
      ∀ b ∈ pool.allBackends, metrics.backendHealth b.addr.toText = some (b.getHealth pool.mem).toInt ∨
        Turned config (b.getHealth pool.mem) (history ticks b) := by
  obtain ⟨hback, hgauged⟩ := gauged_run hpos hlabels (s := .start pool metrics) rfl
    (fun b _ => gauged_nil hpos (b.getHealth pool.mem) (metrics.backendHealth b.addr.toText)) ticks hjoin
  rw [shows_iff_view (by rw [hback]; exact addrs_of_labels hlabels), hback]
  exact forall₂_congr fun b hb => (hgauged b hb).shows_iff

/-- The series show the flags when each showed its backend's flag at the start or the backend has turned. A
run shows them after every tick when those that did not at the start turned at the first tick. Backends have
parsed addresses, so those of a pool have different labels when they are different. -/
theorem shows_run_iff (config : HealthCheckConfig) (hu : 1 ≤ config.unhealthyThreshold)
    (hh : 1 ≤ config.healthyThreshold) (pool : BackendPool) (hn : (pool.allBackends.map (·.addr)).Nodup)
    (hparsed : ∀ b ∈ pool.allBackends, ∃ text, SocketAddr.parse text = some b.addr) (metrics : GunghoMetrics)
    (ticks : List (Tick pool.allBackends)) (hjoin : ∀ t ∈ ticks, ∀ b ∈ pool.allBackends, (t.outcome b).isSome) :
    let after := fun ticks => (run (tick config) (.start pool metrics) ticks).2
    let shown := fun b => metrics.backendHealth b.addr.toText = some (b.getHealth pool.mem).toInt
    (Shows (after ticks) ↔
        ∀ b ∈ pool.allBackends, shown b ∨ Turned config (b.getHealth pool.mem) (history ticks b)) ∧
      ((∀ k, 0 < k → k ≤ ticks.length → Shows (after (ticks.take k))) ↔
        ∀ t, ticks.head? = some t → ∀ b ∈ pool.allBackends, shown b ∨
          (threshold config (!b.getHealth pool.mem) = 1 ∧
            t.outcome b = some (resultFor (!b.getHealth pool.mem)))) := by
  intro after shown
  have hpos := threshold_pos hu hh
  have hlabels : (pool.allBackends.map (·.addr.toText)).Nodup := by
    refine List.Nodup.map_on (fun b hb c hc h => ?_) pool.backends_nodup
    obtain ⟨s, hs⟩ := hparsed b hb
    obtain ⟨t, ht⟩ := hparsed c hc
    exact List.inj_on_of_nodup_map hn hb hc (toText_injOn_parsed hs ht h)
  have hafter := shows_after_iff hpos hlabels metrics
  refine ⟨hafter ticks hjoin, fun h t ht b hb => ?_, fun h k hk hle => ?_⟩
  · obtain ⟨rest, rfl⟩ := List.head?_eq_some_iff.1 ht
    obtain ⟨result, hresult⟩ := Option.isSome_iff_exists.1 (hjoin t (by simp) b hb)
    have hone := (hafter [t] fun u hu => hjoin u (by simp_all)).1 (h 1 Nat.one_pos (by simp)) b hb
    rw [history_cons hresult] at hone
    rw [hresult, Option.some.injEq]
    exact hone.imp_right (turned_singleton hpos _ _).1
  · rw [hafter _ fun u hu => hjoin u (List.mem_of_mem_take hu)]
    intro b hb
    rcases ticks with _ | ⟨t, rest⟩
    · simp at hle
      omega
    obtain ⟨j, rfl⟩ : ∃ j, k = j + 1 := ⟨k - 1, by omega⟩
    refine (h t rfl b hb).imp_right fun ⟨hthreshold, hresult⟩ => ?_
    -- the results of a longer run end in those of the first tick
    have hfirst := (turned_singleton hpos (b.getHealth pool.mem) _).2 ⟨hthreshold, rfl⟩
    rw [List.take_succ_cons, history_cons hresult]
    exact hfirst.trans (List.suffix_append _ _).isInfix

/-- With a threshold of 1 the first tick's failures turn both backends. -/
theorem shows_run_pair :
    let t : Tick BackendPool.pair.allBackends := ⟨fun _ => some .unhealthy, BackendPool.pair.backends, .refl _⟩
    let s := (run (tick { unhealthyThreshold := 1 }) (.start .pair .new) [t]).2
    Shows s ∧ s.metrics.backendHealth "10.0.0.1:80".toList = some 0 := by
  intro t s
  have hparsed : ∀ b ∈ BackendPool.pair.allBackends, ∃ text, SocketAddr.parse text = some b.addr := by
    intro b hb
    exact ⟨b.addr.toText, (parse_toText b.addr).trans (by revert b; decide)⟩
  have hfirst : ∀ u, [t].head? = some u → ∀ b ∈ BackendPool.pair.allBackends, u.outcome b = some .unhealthy := by
    rintro u ⟨⟩ b hb
    rfl
  have hshows := (shows_run_iff { unhealthyThreshold := 1 } (by decide) (by decide) .pair (by decide) hparsed .new [t]
    (by simp [t])).2.2 (fun u hu b hb => .inr ⟨rfl, hfirst u hu b hb⟩) 1 Nat.one_pos (by simp)
  exact ⟨hshows, hshows ⟨0, .v4 ⟨10, 0, 0, 1⟩ 80, 1⟩ (by decide)⟩

/-- A backend that answers every check is healthy and has no series. -/
theorem healthy_without_series :
    let t : Tick BackendPool.pair.allBackends := ⟨fun _ => some .healthy, BackendPool.pair.backends, .refl _⟩
    let s := (run (tick {}) (.start .pair .new) [t]).2
    BackendPool.fromConfig [⟨"10.0.0.1:80".toList, 1⟩, ⟨"10.0.0.2:80".toList, 1⟩] = .ok .pair ∧
      (BackendPool.pair.allBackends.map (·.addr)).Nodup ∧ s.pool.getHealthByAddr (.v4 ⟨10, 0, 0, 1⟩ 80) = some true ∧
      s.metrics.backendHealth "10.0.0.1:80".toList = none ∧ ¬ Shows s := by
  intro t s
  have hnone : s.metrics.backendHealth "10.0.0.1:80".toList = none := rfl
  refine ⟨BackendPool.fromConfig_pair, by decide, by decide, hnone, fun h => ?_⟩
  have hseries := h ⟨0, .v4 ⟨10, 0, 0, 1⟩ 80, 1⟩ (by decide)
  rw [show SocketAddr.toText (.v4 ⟨10, 0, 0, 1⟩ 80) = "10.0.0.1:80".toList by decide, hnone] at hseries
  cases hseries

end Gungho.Health
