/-
A check task that panics ends in a `JoinError`, and the join loop of `HealthChecker::run` goes on
only while `join_next` yields `Some(Ok(..))`: the first error ends the loop of that tick and the
results not yet joined are dropped. So every result is applied exactly once just when no error is
joined before a result.
-/
import Gungho.Health.Check

namespace Gungho.Health

open Gungho.Lib Gungho.Net Gungho.Pool

/-! ## The loop and its body -/

/-- The join loop with any body. -/
def joinLoop {σ : Type} (body : σ → SocketAddr × HealthCheckResult → σ) (s : σ) :
    List (Option (SocketAddr × HealthCheckResult)) → σ
  | [] => s
  | none :: _ => s
  | some r :: rest => joinLoop body (body s r) rest

theorem joinAll_eq_joinLoop (config : HealthCheckConfig) (s : HealthChecker)
    (results : List (Option (SocketAddr × HealthCheckResult))) :
    joinAll config s results = joinLoop (fun s r => applyResult config s r.1 r.2) s results := by
  induction results generalizing s with
  | nil => rfl
  | cons r rest ih =>
    cases r with
    | none => rfl
    | some r => exact ih _

/-- The results the loop runs its body on, in order. -/
def applied (results : List (Option (SocketAddr × HealthCheckResult))) : List (SocketAddr × HealthCheckResult) :=
  joinLoop (fun log r => log ++ [r]) [] results

theorem joinLoop_log (log : List (SocketAddr × HealthCheckResult))
    (results : List (Option (SocketAddr × HealthCheckResult))) :
    joinLoop (fun log r => log ++ [r]) log results = log ++ applied results := by
  unfold applied
  induction results generalizing log with
  | nil => simp [joinLoop]
  | cons r rest ih =>
    cases r with
    | none => simp [joinLoop]
    | some r =>
      simp only [joinLoop]
      rw [ih (log ++ [r]), ih ([] ++ [r]), List.nil_append, List.append_assoc]

@[simp] theorem applied_none (rest : List (Option (SocketAddr × HealthCheckResult))) :
    applied (none :: rest) = [] := rfl

@[simp] theorem applied_some (r : SocketAddr × HealthCheckResult)
    (rest : List (Option (SocketAddr × HealthCheckResult))) : applied (some r :: rest) = r :: applied rest :=
  joinLoop_log [r] rest

/-- Whatever the body is, the loop runs it once for each entry of `applied`, in order. -/
theorem joinLoop_eq_foldl {σ : Type} (body : σ → SocketAddr × HealthCheckResult → σ) (s : σ)
    (results : List (Option (SocketAddr × HealthCheckResult))) :
    joinLoop body s results = (applied results).foldl body s := by
  induction results generalizing s with
  | nil => rfl
  | cons r rest ih =>
    cases r with
    | none => rfl
    | some r =>
      rw [applied_some, List.foldl_cons, ← ih]
      rfl

/-! ## Which results a tick applies -/

/-- The results of the tick's check tasks that did not panic. -/
def produced {bs : List Backend} (t : Tick bs) : List (SocketAddr × HealthCheckResult) :=
  bs.filterMap fun b => (t.outcome b).map fun result => (b.addr, result)

/-- No task that ended in an error is joined before one that has a result. -/
def ErrorsLast {bs : List Backend} (t : Tick bs) : Prop :=
  t.joined.Pairwise fun b c => (t.outcome c).isSome → (t.outcome b).isSome

section

variable {f : Backend → Option (SocketAddr × HealthCheckResult)}

theorem applied_of_pairwise {l : List Backend} (h : l.Pairwise fun b c => (f c).isSome → (f b).isSome) :
    applied (l.map f) = l.filterMap f := by
  induction l with
  | nil => rfl
  | cons b l ih =>
    obtain ⟨hb, hl⟩ := List.pairwise_cons.1 h
    rcases hf : f b with _ | r
    · -- an error first: no result comes after it
      have hnone : ∀ c ∈ l, f c = none := fun c hc => by
        rcases hfc : f c with _ | r
        · rfl
        · have := hb c hc (by rw [hfc]; rfl)
          rw [hf] at this
          cases this
      rw [List.map_cons, hf, applied_none, List.filterMap_cons_none hf, List.filterMap_eq_nil_iff.2 hnone]
    · rw [List.map_cons, hf, applied_some, List.filterMap_cons_some hf, ih hl]

theorem pairwise_of_length {l : List Backend} (h : (applied (l.map f)).length = (l.filterMap f).length) :
    l.Pairwise fun b c => (f c).isSome → (f b).isSome := by
  induction l with
  | nil => exact .nil
  | cons b l ih =>
    rcases hf : f b with _ | r
    · rw [List.map_cons, hf, applied_none, List.filterMap_cons_none hf, List.length_nil] at h
      have hnone := List.filterMap_eq_nil_iff.1 (List.length_eq_zero_iff.1 h.symm)
      refine List.pairwise_cons.2 ⟨fun c hc hs => ?_, ?_⟩
      · rw [hnone c hc] at hs
        cases hs
      · refine List.pairwise_of_forall_mem_list fun c _ d hd hs => ?_
        rw [hnone d hd] at hs
        cases hs
    · rw [List.map_cons, hf, applied_some, List.filterMap_cons_some hf, List.length_cons, List.length_cons] at h
      exact List.pairwise_cons.2 ⟨fun c _ _ => by rw [hf]; rfl, ih (by omega)⟩

end

/-! ## The result -/

/-- A tick is the application of some of its results to the checker's counters and thresholds, one
after the other. These are all the results of its check tasks, each exactly once, if and only if no
error is joined before a result. -/
theorem applied_once_iff (config : HealthCheckConfig) (s : HealthChecker) {bs : List Backend} (t : Tick bs) :
    (tick config s t).2 = prune ((applied t.results).foldl (fun s r => applyResult config s r.1 r.2) s) ∧
      ((applied t.results).Perm (produced t) ↔ ErrorsLast t) := by
  have hloop := joinAll_eq_joinLoop config s t.results
  rw [joinLoop_eq_foldl] at hloop
  refine ⟨congrArg prune hloop, fun h => ?_, fun h => ?_⟩
  · have hlen := h.length_eq.trans ((t.order.filterMap _).length_eq).symm
    simpa only [ErrorsLast, Option.isSome_map] using pairwise_of_length hlen
  · let f : Backend → Option (SocketAddr × HealthCheckResult) :=
      fun b => (t.outcome b).map fun result => (b.addr, result)
    have heq : applied (t.joined.map f) = t.joined.filterMap f :=
      applied_of_pairwise (by simpa only [ErrorsLast, f, Option.isSome_map] using h)
    unfold Tick.results
    rw [heq]
    exact t.order.filterMap _

/-- The task of a backend whose request cannot be built has no result. -/
theorem outcome_of_not_uri {isUri : Text → Bool} {bs : List Backend} (r : Round bs) (config : HealthCheckConfig)
    {b : Backend} (h : isUri (checkUri b.addr config.path) = false) : (r.tick isUri config).outcome b = none := by
  simp only [Round.tick, Round.check, check, h, Bool.false_eq_true, if_false]
  rfl

theorem outcome_of_uri {isUri : Text → Bool} {bs : List Backend} (r : Round bs) (config : HealthCheckConfig)
    {b : Backend} (h : isUri (checkUri b.addr config.path) = true) (hok : r.exchange b = .response .ok) :
    (r.tick isUri config).outcome b = some .healthy := by
  simp only [Round.tick, Round.check, check, h, hok, if_true]
  rfl

theorem length_checkUri (addr : SocketAddr) (path : Text) :
    (checkUri addr path).length = "http://".toList.length + addr.toText.length + path.length := by
  unfold checkUri
  simp only [List.length_append]

/-- The path leaves no room for the longer of two addresses: its check panics and is joined first, and the answer of the
other backend, which was healthy, is dropped. -/
theorem error_drops_result :
    let isUri : Text → Bool := fun text => text.length ≤ 65534
    let config : HealthCheckConfig := { path := '/' :: List.replicate 65515 'a' }
    let long : Backend := ⟨0, .v4 ⟨10, 0, 0, 100⟩ 8080, 1⟩
    let short : Backend := ⟨1, .v4 ⟨10, 0, 0, 1⟩ 80, 1⟩
    let round : Round [long, short] := ⟨fun _ => .response .ok, [long, short], .refl _⟩
    let t := round.tick isUri config
    applied t.results = [] ∧ produced t = [(short.addr, .healthy)] ∧ ¬ (applied t.results).Perm (produced t) := by
  intro isUri config long short round t
  have hpath : config.path.length = 65516 := by rw [List.length_cons, List.length_replicate]
  have hscheme : "http://".toList.length = 7 := by decide
  have hexceeds : isUri (checkUri long.addr config.path) = false :=
    decide_eq_false (by rw [length_checkUri, hscheme, hpath, show long.addr.toText.length = 15 by decide]; omega)
  have hfits : isUri (checkUri short.addr config.path) = true :=
    decide_eq_true (by rw [length_checkUri, hscheme, hpath, show short.addr.toText.length = 11 by decide])
  have hlong : t.outcome long = none := outcome_of_not_uri round config hexceeds
  have hshort : t.outcome short = some .healthy := outcome_of_uri round config hfits rfl
  have hjoined : t.joined = [long, short] := rfl
  clear_value t
  have happlied : applied t.results = [] := by
    rw [Tick.results, hjoined, List.map_cons, hlong]
    rfl
  have hproduced : produced t = [(short.addr, .healthy)] := by
    rw [produced, List.filterMap_cons_none (by rw [hlong]; rfl), List.filterMap_cons_some (by rw [hshort]; rfl),
      List.filterMap_nil]
  refine ⟨happlied, hproduced, fun h => ?_⟩
  rw [happlied, hproduced] at h
  exact absurd h.length_eq (by decide)

end Gungho.Health
