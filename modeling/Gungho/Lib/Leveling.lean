/-
The least of a list of loads, found by one scan while the loads only go down. What the scan keeps
weighs, once for each entry read, no more than the loads had at its start: so in the end the entry kept
holds at most the average.
-/
import Gungho.Lib.Threads
import Mathlib.Algebra.Order.BigOperators.Group.List
import Mathlib.Data.List.Nodup

namespace Gungho.Lib

variable {κ τ : Type*}

/-! ## A scan for the least load -/

/-- The scan has read the first `seen` entries and keeps the entry at `best` with the value it read there. -/
structure Scanning (total : ℕ) (load : κ → ℕ) (slice : List κ) (seen best value : ℕ) : Prop where
  weighed : value * seen + ((slice.drop seen).map load).sum ≤ total
  kept : 0 < seen → ∃ k, slice[best]? = some k ∧ load k ≤ value

section

variable {total seen best value : ℕ} {load load' : κ → ℕ} {slice : List κ}

theorem scanning_start (h : (slice.map load).sum ≤ total) (best value : ℕ) : Scanning total load slice 0 best value :=
  ⟨by simpa using h, fun h => absurd h (Nat.lt_irrefl 0)⟩

theorem Scanning.mono (h : Scanning total load slice seen best value) (hload : ∀ k, load' k ≤ load k) :
    Scanning total load' slice seen best value := by
  obtain ⟨hweighed, hkept⟩ := h
  constructor
  · have hsum : ((slice.drop seen).map load').sum ≤ ((slice.drop seen).map load).sum :=
      List.sum_le_sum fun k _ => hload k
    omega
  · rintro hseen
    obtain ⟨k, hk, hle⟩ := hkept hseen
    exact ⟨k, hk, (hload k).trans hle⟩

theorem sum_drop {k : κ} (hk : slice[seen]? = some k) :
    ((slice.drop seen).map load).sum = load k + ((slice.drop (seen + 1)).map load).sum := by
  obtain ⟨hlt, hget⟩ := List.getElem?_eq_some_iff.1 hk
  rw [List.drop_eq_getElem_cons hlt, List.map_cons, List.sum_cons, hget]

/-- An entry with a lower load, or the first one, is kept instead. -/
theorem Scanning.lower (h : Scanning total load slice seen best value) {k : κ} (hk : slice[seen]? = some k)
    (hle : 0 < seen → load k ≤ value) : Scanning total load slice (seen + 1) seen (load k) := by
  obtain ⟨hweighed, -⟩ := h
  refine ⟨?_, fun _ => ⟨k, hk, le_rfl⟩⟩
  rw [sum_drop hk] at hweighed
  have hseen : load k * seen ≤ value * seen := by
    rcases Nat.eq_zero_or_pos seen with rfl | hpos
    · simp
    · exact Nat.mul_le_mul_right seen (hle hpos)
  rw [Nat.mul_succ]
  omega

theorem Scanning.keep (h : Scanning total load slice seen best value) {k : κ} (hk : slice[seen]? = some k)
    (hseen : 0 < seen) (hle : value ≤ load k) : Scanning total load slice (seen + 1) best value := by
  obtain ⟨hweighed, hkept⟩ := h
  refine ⟨?_, fun _ => hkept hseen⟩
  rw [sum_drop hk] at hweighed
  rw [Nat.mul_succ]
  omega

/-- The entry kept in the end holds at most the average. -/
theorem Scanning.chosen (h : Scanning total load slice slice.length best value) (hne : slice ≠ []) :
    ∃ k, slice[best]? = some k ∧ load k * slice.length ≤ total := by
  obtain ⟨hweighed, hkept⟩ := h
  obtain ⟨k, hk, hle⟩ := hkept (List.length_pos_iff.2 hne)
  rw [List.drop_length, List.map_nil, List.sum_nil, Nat.add_zero] at hweighed
  exact ⟨k, hk, (Nat.mul_le_mul_right _ hle).trans hweighed⟩

end

/-! ## Loads as numbers of threads -/

/-- Threads that each load at most one key: the loads of different keys are no more than the threads. -/
theorem sum_countP_le [DecidableEq κ] {keys : List κ} (hkeys : keys.Nodup) (key : τ → Option κ) (ts : List τ) :
    (keys.map fun k => ts.countP fun t => key t = some k).sum ≤ ts.countP fun t => (key t).isSome := by
  induction ts with
  | nil => simp
  | cons t ts ih =>
    have hone : (keys.map fun k => if key t = some k then 1 else 0).sum ≤ if (key t).isSome then 1 else 0 := by
      rcases key t with _ | k
      · simp
      · have hsum := sum_indicator (fun i => decide (some k = some i)) keys
        simp only [decide_eq_true_eq] at hsum
        rw [hsum, Option.isSome_some, if_pos rfl]
        calc keys.countP (fun i => decide (some k = some i)) = keys.countP (· == k) :=
              List.countP_congr fun i _ => by rw [decide_eq_true_eq, Option.some.injEq, beq_iff_eq, eq_comm]
          _ ≤ 1 := List.nodup_iff_count_le_one.1 hkeys k
    simp only [List.countP_cons, decide_eq_true_eq, List.sum_map_add]
    exact Nat.add_le_add ih hone

end Gungho.Lib
