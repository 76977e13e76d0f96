/-
The documented algorithm keeps one running credit for each backend, the code one for each position.
The two choose the same backend in every call as long as every snapshot is a prefix of the first one,
so that a backend's position never changes; otherwise a backend continues with another one's credit.
-/
import Gungho.Lb.Drift

namespace Gungho.Lb

open Gungho.Lib Gungho.Lib.Credit Gungho.Pool

/-! ## The run -/

/-- A step of the sequential run. -/
inductive Turn where
  | mark (op : MarkOp)
  | select
  deriving DecidableEq, Repr

/-- A call of `select` gets the current `healthy_backends()`. -/
def turn (p : BackendPool) : Turn → Option (List Backend) × BackendPool
  | .mark op => (none, (op.apply p).2)
  | .select => (some p.healthyBackends, p)

/-- The snapshots of the run's calls, in order. -/
def snapshots (p : BackendPool) (turns : List Turn) : List (List Backend) := (run turn p turns).1.filterMap id

/-- The backend a result of `select` stands for. -/
def chosen (slice : List Backend) : Except Panic (Option Nat) → Option Backend
  | .ok (some i) => slice[i]?
  | _ => none

/-- A call of the code: the backend it chooses. -/
def choose (s : WeightedRoundRobin) (slice : List Backend) : Option Backend × WeightedRoundRobin :=
  (chosen slice (s.select slice).1, (s.select slice).2)

/-- The documented algorithm: one running credit for each backend. -/
def documented (c : Backend → ℤ) (slice : List Backend) : Option Backend × (Backend → ℤ) :=
  step c ⟨slice, fun b => b.weight.toNat⟩

/-! ## Snapshots -/

theorem turn_synced {p : BackendPool} (hp : p.Synced) (t : Turn) :
    (∀ slice, (turn p t).1 = some slice → slice.Nodup) ∧ (turn p t).2.Synced := by
  cases t with
  | mark op =>
    refine ⟨fun slice h => by simp [turn] at h, ?_⟩
    show (op.apply p).2.Synced
    rw [op.apply_eq]
    exact p.mark_synced hp _ _
  | select =>
    refine ⟨fun slice h => ?_, hp⟩
    cases h
    show p.healthyCache.Nodup
    rw [hp]
    exact p.backends_nodup.filter _

/-- A snapshot lists each backend at most once. -/
theorem snapshots_nodup {p : BackendPool} (hp : p.Synced) (turns : List Turn) :
    ∀ slice ∈ snapshots p turns, slice.Nodup := by
  intro slice hslice
  obtain ⟨o, ho, hos⟩ := List.mem_filterMap.1 hslice
  exact outputs_run BackendPool.Synced (fun o => ∀ slice, o = some slice → slice.Nodup)
    (fun _ t hp _ => turn_synced hp t) turns p hp (along_of_forall turns p fun _ _ => trivial) o ho slice hos

theorem firstSlice_nodup {slices : List (List Backend)} (h : ∀ slice ∈ slices, slice.Nodup) :
    (firstSlice slices).Nodup := by
  rcases hf : slices.find? (!·.isEmpty) with _ | slice <;> unfold firstSlice <;> rw [hf]
  · exact List.nodup_nil
  · exact h slice (List.mem_of_find?_eq_some hf)

/-! ## One call -/

/-- The backend at a position of the first snapshot. -/
def backendAt (first : List Backend) (b₀ : Backend) (i : ℕ) : Backend := first[i]?.getD b₀

section

variable {first slice : List Backend} (b₀ : Backend)

theorem getElem?_of_isPrefix (hpre : slice <+: first) {i : ℕ} (hi : i < slice.length) :
    slice[i]? = some (backendAt first b₀ i) := by
  have hf := hi.trans_le hpre.length_le
  rw [backendAt, List.getElem?_eq_getElem hf, Option.getD_some, ← hpre.getElem hi]
  exact List.getElem?_eq_getElem hi

theorem backendAt_injOn (hn : first.Nodup) : Set.InjOn (backendAt first b₀) (Finset.range first.length) := by
  intro i hi j hj h
  have hi' := Finset.mem_range.1 hi
  have hj' := Finset.mem_range.1 hj
  rw [backendAt, backendAt, List.getElem?_eq_getElem hi', List.getElem?_eq_getElem hj'] at h
  exact (hn.getElem_inj_iff).1 h

/-- On a prefix of the first snapshot the documented algorithm is the round over positions, each
position renamed to its backend. -/
theorem documented_of_isPrefix (hn : first.Nodup) (hpre : slice <+: first) {c : ℕ → ℤ} {c' : Backend → ℤ}
    (hc : ∀ i ∈ Finset.range first.length, c' (backendAt first b₀ i) = c i) :
    (documented c' slice).1 = (step c (roundOf slice)).1.map (backendAt first b₀) ∧
      ∀ i ∈ Finset.range first.length,
        (documented c' slice).2 (backendAt first b₀ i) = (step c (roundOf slice)).2 i := by
  refine step_rename (backendAt_injOn b₀ hn) (roundOf_fits hpre.length_le le_rfl).2.1 ?_ (fun i hi => ?_) hc
  · refine List.ext_getElem? fun i => ?_
    by_cases hi : i < slice.length
    · rw [getElem?_of_isPrefix b₀ hpre hi]
      simp [roundOf, hi]
    · simp [roundOf, not_lt.1 hi]
  · exact (roundOf_weight (getElem?_of_isPrefix b₀ hpre (mem_roundOf.1 hi))).symm

/-- One call: the same backend, and credits that still agree. -/
theorem choose_eq (hn : first.Nodup) (hpre : slice <+: first) {s : WeightedRoundRobin}
    (hslots : slice.length ≤ (s.getOrInit slice).length) (hno : NoOverflow s slice) {c' : Backend → ℤ}
    (hc : ∀ i ∈ Finset.range first.length, c' (backendAt first b₀ i) = s.credit i) :
    (choose s slice).1 = (documented c' slice).1 ∧
      ∀ i ∈ Finset.range first.length,
        (documented c' slice).2 (backendAt first b₀ i) = (choose s slice).2.credit i := by
  obtain ⟨hsel, hcredit⟩ := select_exact s hslots hno
  obtain ⟨hdoc, hdoc'⟩ := documented_of_isPrefix b₀ hn hpre hc
  refine ⟨?_, fun i hi => (hdoc' i hi).trans (congrFun hcredit i).symm⟩
  unfold choose
  rw [hsel, hdoc]
  by_cases hne : slice = []
  · subst hne; rfl
  · obtain ⟨j, hj, -, hstep, -⟩ := step_spec (roundOf_keys_ne hne) s.credit
    rw [hstep]
    exact getElem?_of_isPrefix b₀ hpre (mem_roundOf.1 hj)

/-- Every run: the same backend in every call. -/
theorem choose_run (hn : first.Nodup) (slices : List (List Backend)) (hpre : ∀ slice ∈ slices, slice <+: first)
    (s : WeightedRoundRobin) (hfits : Fits (s.credits.map List.length) slices)
    (hno : Along WeightedRoundRobin.select NoOverflow s slices) (c' : Backend → ℤ)
    (hc : ∀ i ∈ Finset.range first.length, c' (backendAt first b₀ i) = s.credit i) :
    (run choose s slices).1 = (run documented c' slices).1 := by
  induction slices generalizing s c' with
  | nil => rfl
  | cons slice slices ih =>
    rw [List.forall_mem_cons] at hpre
    have hslots : slice.length ≤ (s.getOrInit slice).length := s.getOrInit_length slice ▸ fits_length hfits
    -- positions and backends still have the same credits after the call
    obtain ⟨hsame, hcredits⟩ := choose_eq b₀ hn hpre.1 hslots hno.1 hc
    have hrest := ih hpre.2 _ (WeightedRoundRobin.fits_select hfits) hno.2 _ hcredits
    rw [run_cons, run_cons, hsame]
    exact congrArg _ hrest

end

/-! ## The result -/

/-- In a sequential run in which every snapshot is a prefix of the first non-empty one and no `i64`
operation overflows, every call chooses the backend that the documented algorithm chooses. -/
theorem choose_eq_documented (p : BackendPool) (hp : p.Synced) (turns : List Turn)
    (hpre : ∀ slice ∈ snapshots p turns, slice <+: firstSlice (snapshots p turns))
    (hno : Along WeightedRoundRobin.select NoOverflow .new (snapshots p turns)) :
    (run choose .new (snapshots p turns)).1 = (run documented (fun _ => 0) (snapshots p turns)).1 := by
  have hn := firstSlice_nodup (snapshots_nodup hp turns)
  exact choose_run ⟨0, .v4 ⟨0, 0, 0, 0⟩ 0, 0⟩ hn _ hpre .new (fun slice hs => (hpre slice hs).length_le) hno _
    fun _ _ => rfl

/-- Three backends of weight 1, all healthy. -/
def trio : BackendPool :=
  .new .init [⟨0, .v4 ⟨10, 0, 0, 1⟩ 80, 1⟩, ⟨1, .v4 ⟨10, 0, 0, 2⟩ 80, 1⟩, ⟨2, .v4 ⟨10, 0, 0, 3⟩ 80, 1⟩] (by decide)

/-- The last backend leaves and comes back. -/
theorem choose_eq_documented_last :
    let turns : List Turn := [.select, .mark (.markUnhealthy 2), .select, .mark (.markHealthy 2), .select]
    (run choose .new (snapshots trio turns)).1 = (run documented (fun _ => 0) (snapshots trio turns)).1 := by
  intro turns
  have hs : snapshots trio turns = [trio.backends, trio.backends.take 2, trio.backends] := by decide
  have hno : Along WeightedRoundRobin.select NoOverflow .new (snapshots trio turns) := by
    rw [hs]
    exact along_noOverflow (show 3 * (3 + 1) < 2 ^ 64 by decide) _ (by decide) (by decide) .new
      (by unfold Fits; decide) (credit_new ▸ bounded_zero (by decide)) (by decide)
  exact choose_eq_documented trio (BackendPool.new_synced _ _ _) turns (by rw [hs]; decide) hno

/-- The first backend wins and leaves: the second continues with its credit, and the third wins in
the second's place. -/
theorem first_leaves :
    let turns : List Turn := [.select, .mark (.markUnhealthy 0), .select]
    (∀ slice ∈ snapshots trio turns, slice.length ≤ (firstSlice (snapshots trio turns)).length) ∧
      (run choose .new (snapshots trio turns)).1 ≠ (run documented (fun _ => 0) (snapshots trio turns)).1 := by
  decide

end Gungho.Lb
