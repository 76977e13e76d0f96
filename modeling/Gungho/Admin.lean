/-
The readiness endpoint of `admin.rs` and what it reads: after a run of the public operations on
backends the healthy list, the `/readyz` status and its count agree with the flags exactly as long
as no `Backend::set_health` has changed a flag, since only the mark methods rebuild the list.
-/
import Gungho.Metrics
import Gungho.Pool.Handles

namespace Gungho

open Gungho.Lib Gungho.Net Gungho.Pool

/-! ## The endpoint -/

/-- The body of `/readyz` with the given status text and count. -/
def readyzBody (status : Text) (healthyCount : Nat) : Text :=
  "\x7b\"status\": \"".toList ++ status ++ "\", \"healthy_backends\": ".toList ++ decimal healthyCount ++
    "\x7d".toList

/-- `Admin::handle_readyz`: the status code and the body. -/
def handleReadyz (pool : BackendPool) : StatusCode × Text :=
  let healthy := pool.healthyBackends
  let healthyCount := healthy.length
  if healthy.isEmpty then (.serviceUnavailable, readyzBody "not ready".toList 0)
  else (.ok, readyzBody "ok".toList healthyCount)

example : (handleReadyz .pair).2 = "\x7b\"status\": \"ok\", \"healthy_backends\": 2\x7d".toList := by decide

/-! ## Agreement with the flags -/

/-- The healthy list is the backends with a true flag, in pool order, and `/readyz` tells whether
there are any and how many. -/
structure Agrees (p : BackendPool) : Prop where
  healthy : p.healthyBackends = p.allBackends.filter (·.getHealth p.mem)
  readyz : handleReadyz p =
    if p.allBackends.any (·.getHealth p.mem) then
      (.ok, readyzBody "ok".toList (p.allBackends.countP (·.getHealth p.mem)))
    else (.serviceUnavailable, readyzBody "not ready".toList 0)

theorem agrees_iff_synced (p : BackendPool) : Agrees p ↔ p.Synced := by
  refine ⟨fun h => h.healthy, fun h => ⟨h, ?_⟩⟩
  have hlist : p.healthyBackends = p.allBackends.filter (·.getHealth p.mem) := h
  unfold handleReadyz
  rw [hlist, List.countP_eq_length_filter]
  by_cases hany : p.allBackends.any (·.getHealth p.mem) = true
  · have hne : (p.allBackends.filter (·.getHealth p.mem)).isEmpty = false := by
      simpa [List.isEmpty_eq_false_iff, List.filter_eq_nil_iff] using hany
    simp only [hne, hany, if_true, Bool.false_eq_true, if_false]
  · have hnil : (p.allBackends.filter (·.getHealth p.mem)).isEmpty = true := by
      simpa [List.filter_eq_nil_iff] using hany
    simp only [hnil, hany, if_true, Bool.false_eq_true, if_false]

/-! ## The result -/

/-- In a run of the public operations, started on a pool in sync, list and endpoint agree with the
flags after every operation exactly when every `set_health` stores the value the flag has. -/
theorem agrees_iff_flags_kept (p : BackendPool) (hp : p.Synced) (ops : List HealthOp) :
    (∀ q ∈ (run operate (.start p) ops).1, Agrees q) ↔ Along operate KeepsFlag (.start p) ops := by
  have hstart : HandlesInv (.start p) := ⟨hp, by simp [Handles.start]⟩
  refine outputs_iff HandlesInv (fun s op hs => ?_) (fun s op hs hc => handlesInv_apply hs op hc) ops _ hstart
  rw [agrees_iff_synced]
  exact apply_synced_iff hs op

theorem agrees_marks_only :
    let ops : List HealthOp := [.mark (.markUnhealthy 0), .setHealth (.all 1) true]
    Along operate KeepsFlag (.start .pair) ops ∧ ∀ q ∈ (run operate (.start .pair) ops).1, Agrees q := by
  intro ops
  have hkept : Along operate KeepsFlag (.start .pair) ops := by
    refine ⟨trivial, fun b hb => ?_, trivial⟩
    cases hb
    rfl
  exact ⟨hkept, (agrees_iff_flags_kept .pair (BackendPool.new_synced _ _ _) ops).2 hkept⟩

/-- `set_health(false)` on the first backend leaves it in the healthy list, and `/readyz` still
counts two. -/
theorem set_health_unseen :
    ¬ ∀ q ∈ (run operate (.start .pair) [.setHealth (.all 0) false]).1, Agrees q := by
  intro h
  have hsync := (h _ (by simp [run_cons]) : Agrees (operate (.start .pair) (.setHealth (.all 0) false)).1).healthy
  exact absurd hsync (by decide)

/-! ## The other endpoints -/

def StatusCode.notFound : StatusCode := ⟨404, by decide⟩

/-- A response of the admin server: the status code, the content type if one is set, and the body. -/
structure AdminResponse where
  status : StatusCode
  contentType : Option Text
  body : Text
  deriving DecidableEq

namespace Admin

/-- The Prometheus encoder is a parameter. -/
def handleMetrics (encodeMetrics : GunghoMetrics → Text) (metrics : GunghoMetrics) : AdminResponse :=
  ⟨.ok, some "text/plain; version=0.0.4; charset=utf-8".toList, encodeMetrics metrics⟩

def handleLivez : AdminResponse := ⟨.ok, none, "\x7b\"status\": \"ok\"\x7d".toList⟩

def handleDefault : AdminResponse := ⟨.notFound, none, "\x7b\"status\": \"could not be found\"\x7d".toList⟩

/-- `Admin::handle_request`, on the path of the request's URI. -/
def handleRequest (encodeMetrics : GunghoMetrics → Text) (metrics : GunghoMetrics) (pool : BackendPool) (path : Text) :
    AdminResponse :=
  if path = "/metrics".toList then handleMetrics encodeMetrics metrics
  else if path = "/livez".toList then handleLivez
  else if path = "/readyz".toList then ⟨(handleReadyz pool).1, none, (handleReadyz pool).2⟩
  else handleDefault

/-- The server says it is unavailable at `/readyz` only, and only while the healthy list is empty. -/
theorem handleRequest_unavailable_iff (encodeMetrics : GunghoMetrics → Text) (metrics : GunghoMetrics)
    (pool : BackendPool) (path : Text) :
    (handleRequest encodeMetrics metrics pool path).status = .serviceUnavailable ↔
      path = "/readyz".toList ∧ pool.healthyBackends = [] := by
  have hok : StatusCode.ok ≠ .serviceUnavailable := by decide
  have hnot : StatusCode.notFound ≠ .serviceUnavailable := by decide
  have hmetrics : "/metrics".toList ≠ "/readyz".toList := by decide
  have hlivez : "/livez".toList ≠ "/readyz".toList := by decide
  unfold handleRequest
  by_cases hm : path = "/metrics".toList
  · subst hm
    rw [if_pos rfl]
    exact iff_of_false hok fun h => hmetrics h.1
  · rw [if_neg hm]
    by_cases hl : path = "/livez".toList
    · subst hl
      rw [if_pos rfl]
      exact iff_of_false hok fun h => hlivez h.1
    · rw [if_neg hl]
      by_cases hr : path = "/readyz".toList
      · rw [if_pos hr]
        unfold handleReadyz
        by_cases hlist : pool.healthyBackends = []
        · simp [hr, hlist]
        · simp [hlist, hok]
      · rw [if_neg hr]
        exact iff_of_false hnot fun h => hr h.1

end Admin

end Gungho
