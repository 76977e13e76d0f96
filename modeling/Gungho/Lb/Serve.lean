/-
Requests and health transitions in any order: a request takes a snapshot of the healthy list and
calls `select` on it, possibly after the pool has changed. Every call returns a valid index, except
that the weighted strategy panics on a slice longer than the first non-empty one it was called on.
-/
import Gungho.Lib.Run
import Gungho.Lb.Strategy

namespace Gungho.Lb

open Gungho.Lib Gungho.Net Gungho.Pool

/-! ## Runs -/

/-- The call of `select` by the request that took the snapshot with this number. -/
structure Request where
  snapshot : Nat
  clientAddr : Option SocketAddr
  rng : RandomRange

/-- A mark, a connection guard of a request as it is made or dropped, a snapshot taken, a call of
`select`. -/
inductive Event where
  | mark (op : MarkOp)
  | guardNew (b : Backend)
  | guardDrop (b : Backend)
  | snapshot
  | select (request : Request)

/-- The pool and the snapshots taken so far. -/
structure Feed where
  pool : BackendPool
  snapshots : List (List Backend)

def Feed.start (pool : BackendPool) : Feed := ⟨pool, []⟩

/-- What an event does to the pool, and the slice on which it calls `select`, if it does. -/
def feedStep (w : Nat) (s : Feed) : Event → Option (Request × List Backend) × Feed
  | .mark op => (none, { s with pool := (op.apply s.pool).2 })
  | .guardNew b => (none, { s with pool := { s.pool with mem := b.incrementConnections w s.pool.mem } })
  | .guardDrop b => (none, { s with pool := { s.pool with mem := b.decrementConnections w s.pool.mem } })
  | .snapshot => (none, { s with snapshots := s.snapshots ++ [s.pool.healthyBackends] })
  | .select request => (s.snapshots[request.snapshot]?.map fun slice => (request, slice), s)

structure Serving where
  feed : Feed
  strategy : Strategy

/-- One event; a call of `select` emits its slice and its result. -/
def serve (w : Nat) (s : Serving) (e : Event) : Option (List Backend × Except Panic (Option Nat)) × Serving :=
  match feedStep w s.feed e with
  | (none, feed) => (none, ⟨feed, s.strategy⟩)
  | (some (request, slice), feed) =>
    let result := s.strategy.select w feed.pool.mem request.rng slice request.clientAddr
    (some (slice, result.1), ⟨feed, result.2⟩)

/-- The slices of the run's calls of `select`, in order. -/
def slices (w : Nat) (s : Feed) (events : List Event) : List (List Backend) :=
  ((run (feedStep w) s events).1.filterMap id).map (·.2)

/-- The calls of `select` of the run: their slices and results. -/
def answers (w : Nat) (s : Serving) (events : List Event) : List (List Backend × Except Panic (Option Nat)) :=
  (run (serve w) s events).1.filterMap id

/-! ## Every strategy but the weighted one -/

theorem serve_valid (w : Nat) {s : Serving} (hs : s.strategy.algorithm ≠ .weightedRoundRobin) (e : Event) :
    (∀ a, (serve w s e).1 = some a → Valid a.1 a.2) ∧
      (serve w s e).2.strategy.algorithm ≠ .weightedRoundRobin := by
  unfold serve
  rcases feedStep w s.feed e with ⟨_ | ⟨request, slice⟩, feed⟩
  · exact ⟨fun a h => by simp at h, hs⟩
  · obtain ⟨hvalid, hkind⟩ := s.strategy.select_valid w feed.pool.mem request.rng hs slice request.clientAddr
    refine ⟨fun a h => ?_, fun h => hs (hkind ▸ h)⟩
    cases h
    exact hvalid

theorem answers_valid (w : Nat) {s : Serving} (hs : s.strategy.algorithm ≠ .weightedRoundRobin)
    (events : List Event) : ∀ a ∈ answers w s events, Valid a.1 a.2 := by
  intro a ha
  obtain ⟨o, ho, hoa⟩ := List.mem_filterMap.1 ha
  exact outputs_run (fun s : Serving => s.strategy.algorithm ≠ .weightedRoundRobin)
    (fun o => ∀ a, o = some a → Valid a.1 a.2) (fun _ e hs _ => serve_valid w hs e) events s hs
    (along_of_forall events s fun _ _ => trivial) o ho a hoa

/-! ## The weighted strategy -/

section

variable {w : Nat} {s feed : Feed} {strategy : Strategy} {e : Event} {request : Request} {slice : List Backend}

theorem slices_skip (h : feedStep w s e = (none, feed)) (es : List Event) :
    slices w s (e :: es) = slices w feed es := by
  simp [slices, run_cons, h]

theorem slices_call (h : feedStep w s e = (some (request, slice), feed)) (es : List Event) :
    slices w s (e :: es) = slice :: slices w feed es := by
  simp [slices, run_cons, h]

theorem answers_skip (h : feedStep w s e = (none, feed)) (es : List Event) :
    answers w ⟨s, strategy⟩ (e :: es) = answers w ⟨feed, strategy⟩ es := by
  simp [answers, run_cons, serve, h]

theorem answers_call (h : feedStep w s e = (some (request, slice), feed)) (es : List Event) :
    answers w ⟨s, strategy⟩ (e :: es) =
      (slice, (strategy.select w feed.pool.mem request.rng slice request.clientAddr).1) ::
        answers w ⟨feed, (strategy.select w feed.pool.mem request.rng slice request.clientAddr).2⟩ es := by
  simp [answers, run_cons, serve, h]

end

/-- From a vector of any length, or none, every call is valid exactly when every slice has its slots. -/
theorem weighted_valid_iff (w : Nat) (feed : Feed) (s : WeightedRoundRobin) (events : List Event) :
    (∀ a ∈ answers w ⟨feed, .weightedRoundRobin s⟩ events, Valid a.1 a.2) ↔
      Fits (s.credits.map List.length) (slices w feed events) := by
  induction events generalizing feed s with
  | nil => simp [answers, slices, Fits]
  | cons e es ih =>
    rcases hf : feedStep w feed e with ⟨_ | ⟨request, slice⟩, feed'⟩
    · rw [answers_skip hf, slices_skip hf, ih]
    rw [answers_call hf, slices_call hf, List.forall_mem_cons]
    simp only [Strategy.select]
    by_cases hne : slice = []
    · subst hne
      rw [WeightedRoundRobin.select_nil, ih, fits_nil_cons]
      exact and_iff_right (valid_nil rfl)
    rw [fits_cons _ hne, ← s.getOrInit_length]
    -- a call leaves the number of slots as it is, whether it panics or not
    by_cases hlen : slice.length ≤ (s.getOrInit slice).length
    · obtain ⟨i, hi, credits, hsel, hcredits⟩ := s.select_valid hne hlen
      rw [hsel, ih, ← hcredits]
      exact and_congr_left fun _ => ⟨fun _ => hcredits ▸ hlen, fun _ => .inr ⟨i, hi, rfl⟩⟩
    · obtain ⟨panic, credits, hsel, -⟩ := s.select_panics (Nat.lt_of_not_le hlen)
      rw [hsel]
      refine iff_of_false ?_ fun h => hlen h.1
      rintro ⟨⟨-, h⟩ | ⟨i, -, h⟩, -⟩ <;> cases h

/-! ## The result -/

/-- In a run of any strategy on any pool every call of `select` is valid, unless the strategy is the
weighted one and some call's slice is longer than the first non-empty slice. -/
theorem select_valid_iff (w : Nat) (pool : BackendPool) (algorithm : Algorithm) (events : List Event) :
    (∀ a ∈ answers w ⟨.start pool, createStrategy algorithm⟩ events, Valid a.1 a.2) ↔
      (algorithm = .weightedRoundRobin → ∀ slice ∈ slices w (.start pool) events,
        slice.length ≤ (firstSlice (slices w (.start pool) events)).length) := by
  by_cases h : algorithm = .weightedRoundRobin
  · subst h
    rw [forall_prop_of_true rfl]
    exact weighted_valid_iff w (.start pool) .new events
  · refine iff_of_true (answers_valid w (fun e => h ?_) events) fun e => absurd e h
    rw [← algorithm_createStrategy algorithm]
    exact e

/-- The second backend is out of rotation at the first call and back at the second. -/
theorem select_panics_after_recovery :
    let request : Nat → Request := fun snapshot => ⟨snapshot, none, .lowest⟩
    let events : List Event := [.mark (.markUnhealthy 1), .snapshot, .select (request 0), .mark (.markHealthy 1),
      .snapshot, .select (request 1)]
    BackendPool.fromConfig [⟨"10.0.0.1:80".toList, 1⟩, ⟨"10.0.0.2:80".toList, 1⟩] = .ok .pair ∧
      ¬ ∀ a ∈ answers 64 ⟨.start .pair, createStrategy .weightedRoundRobin⟩ events, Valid a.1 a.2 := by
  intro request events
  refine ⟨BackendPool.fromConfig_pair, fun h => ?_⟩
  have hlen : Fits none (slices 64 (.start .pair) events) := (weighted_valid_iff 64 _ .new events).1 h
  have hs : slices 64 (.start .pair) events = [BackendPool.pair.backends.take 1, BackendPool.pair.backends] := by
    decide
  exact absurd hlen (by rw [hs]; unfold Fits; decide)

end Gungho.Lb
