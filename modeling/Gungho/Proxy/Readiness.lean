/-
What `/readyz` says about requests. The probe and the proxy read the same list: a request that takes its
snapshot when the probe would answer 200 is never refused for want of a backend, and one that takes it when
the probe would answer 503 is, whatever happens to the pool before it has chosen.
-/
import Gungho.Proxy.Routing

namespace Gungho.Proxy

open Gungho.Lib Gungho.Lb Gungho.Net Gungho.Pool

theorem readyz_ok_iff (pool : BackendPool) : (handleReadyz pool).1 = .ok ↔ pool.healthyBackends ≠ [] := by
  have hne : StatusCode.serviceUnavailable ≠ .ok := by decide
  unfold handleReadyz
  by_cases hlist : pool.healthyBackends = []
  · simp [hlist, hne]
  · simp [hlist]

theorem readyz_unavailable_iff (pool : BackendPool) :
    (handleReadyz pool).1 = .serviceUnavailable ↔ pool.healthyBackends = [] := by
  have hne : StatusCode.ok ≠ .serviceUnavailable := by decide
  unfold handleReadyz
  by_cases hlist : pool.healthyBackends = []
  · simp [hlist]
  · simp [hlist, hne]

/-- On the empty list a request takes no guard and ends with the refusal, unless it is dropped. -/
theorem refused_of_nil {parseUri : Text → Option Uri} {req : Request} {t : Handling} (h : Routed parseUri [] req t) :
    t.guard = none ∧ ∀ exit, t.exit = some exit → exit = .returned none serviceUnavailable ∨ exit = .dropped := by
  cases t with
  | start req' rng => exact ⟨rfl, fun exit he => by cases he⟩
  | selecting req' healthy call => exact ⟨rfl, fun exit he => by cases he⟩
  | guarding b uri headers => exact absurd h.listed List.not_mem_nil
  | awaiting b uri headers => exact absurd h.listed List.not_mem_nil
  | recording guard resp =>
    cases guard with
    | none => exact ⟨rfl, fun exit he => by cases he⟩
    | some b => exact absurd h.1 List.not_mem_nil
  | observing guard resp =>
    cases guard with
    | none => exact ⟨rfl, fun exit he => by cases he⟩
    | some b => exact absurd h.1 List.not_mem_nil
  | leaving b exit => exact absurd h.1 List.not_mem_nil
  | ended exit =>
    refine ⟨rfl, fun exit' he => ?_⟩
    cases he
    cases exit with
    | returned guard resp =>
      cases guard with
      | none => exact .inl (by rw [h.2])
      | some b => exact absurd h.1 List.not_mem_nil
    | rejected resp =>
      obtain ⟨-, b, hb, -⟩ := h
      exact absurd hb List.not_mem_nil
    | dropped => exact .inr rfl
    | panicked message => exact absurd rfl h

/-- A request that takes its snapshot while `/readyz` answers 200 never ends with the proxy's own 503, and one that
takes it while `/readyz` answers 503 never reaches a backend and is refused. -/
theorem readyz_predicts (w : ℕ) (parseUri : Text → Option Uri) (p : Proxy) (before after : List Choice) (k elapsed : ℕ)
    (req : Request) (rng : RandomRange)
    (harrived : (run (serving w parseUri) (idle p) before).2.threads[k]? = some (.start req rng)) :
    let pool := (run (serving w parseUri) (idle p) before).2.shared.pool
    ∃ u, (run (serving w parseUri) (idle p) (before ++ .step k (.go elapsed) :: after)).2.threads[k]? = some u ∧
      ((handleReadyz pool).1 = .ok → ∀ resp, u.exit ≠ some (.returned none resp)) ∧
      ((handleReadyz pool).1 = .serviceUnavailable → u.guard = none ∧
        ∀ exit, u.exit = some exit → exit = .returned none serviceUnavailable ∨ exit = .dropped) := by
  intro pool
  obtain ⟨u, hu, -, hrouted⟩ :
      ∃ u, (run (serving w parseUri) (run (serving w parseUri) (idle p) before).2
          (.step k (.go elapsed) :: after)).2.threads[k]? =
        some u ∧ u.started = true ∧ Routed parseUri pool.healthyBackends req u :=
    kept_from (I := fun _ => True) (fun _ _ _ => trivial) (fun _ _ _ _ => trivial)
      (fun _ _ i _ h => routed_going h.1 h.2 i) trivial harrived ⟨rfl, rfl, rfl, rfl⟩ after
  refine ⟨u, ?_, fun hok resp hexit => ?_, fun hun => ?_⟩
  · rw [run_append]
    exact hu
  · have hne := (readyz_ok_iff pool).1 hok
    cases u with
    | ended exit =>
      cases hexit
      exact hne hrouted.1
    | _ => cases hexit
  · rw [(readyz_unavailable_iff pool).1 hun] at hrouted
    exact refused_of_nil hrouted

/-- The pool's only backend goes out of the list, and comes back when the request has its snapshot. -/
theorem readyz_predicts_refused :
    let req : Request := ⟨.v4 ⟨192, 168, 1, 1⟩ 1234, none, ⟨[]⟩⟩
    let before : List Choice := [.spawn (req, .lowest), .outside (.replaceCache [])]
    let after : List Choice := .outside (.replaceCache oneBackend.pool.backends) :: List.replicate 4 (.step 0 (.go 0))
    ∃ u, (run (serving 64 Uri.accept) (idle oneBackend) (before ++ .step 0 (.go 0) :: after)).2.threads[0]? = some u ∧
      u.guard = none := by
  intro req before after
  obtain ⟨u, hu, -, hrefused⟩ := readyz_predicts 64 Uri.accept oneBackend before after 0 0 req .lowest rfl
  exact ⟨u, hu, (hrefused rfl).1⟩

end Gungho.Proxy
