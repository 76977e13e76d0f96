/-
A fresh weighted strategy called again and again on one slice of positive total weight `W`: every
window of `W` calls returns each index exactly as often as its weight says.
-/
import Gungho.Lb.Drift

namespace Gungho.Lb

open Gungho.Lib Gungho.Lib.Credit Gungho.Pool

theorem fits_replicate {slice : List Backend} (hne : slice ≠ []) (n : ℕ) : Fits none (List.replicate n slice) := by
  cases n with
  | zero => simp [Fits]
  | succ n =>
    intro s hs
    rw [List.replicate_succ, firstSlice_cons hne, List.eq_of_mem_replicate hs]
    exact le_rfl

/-- Slots that all count 0 hold 0. -/
theorem eq_zero_of_slot {credits : List Int64} (h : slot credits = fun _ => 0) : ∀ credit ∈ credits, credit = 0 := by
  intro credit hc
  obtain ⟨i, hi⟩ := List.getElem?_of_mem hc
  have hz := congrFun h i
  rw [slot, hi, Option.getD_some] at hz
  exact Int64.toInt_inj.1 hz

/-- A numeric condition under which the calls never overflow; it holds below `2 ^ 16` backends. -/
theorem noOverflow_replicate {slice : List Backend} (hne : slice ≠ [])
    (h : totalWeight slice * (slice.length + 1) < 2 ^ 64) (n : ℕ) :
    Along WeightedRoundRobin.select NoOverflow .new (List.replicate n slice) := by
  refine along_noOverflow h _ (fun s hs => ?_) (fun s hs => ?_) .new (fits_replicate hne n)
    (credit_new ▸ bounded_zero (by positivity)) (by simp [credit_new])
  · rw [List.eq_of_mem_replicate hs]
  · rw [List.eq_of_mem_replicate hs, roundOf_total]

/-- In every window of `W` calls each index is returned as often as its weight, after every multiple
of `W` calls the credits are zero, and after `k` calls an index has been returned less than one time
more than its share of `k`. -/
theorem select_proportional (slice : List Backend) (hW : 0 < totalWeight slice)
    (hno : ∀ n, Along WeightedRoundRobin.select NoOverflow .new (List.replicate n slice)) :
    let calls := fun n => run WeightedRoundRobin.select .new (List.replicate n slice)
    (∀ i b, slice[i]? = some b → ∀ n,
      ((calls (n + totalWeight slice)).1.drop n).count (.ok (some i)) = b.weight.toNat) ∧
    (∀ m, ∀ credit ∈ (calls (m * totalWeight slice)).2.credits.getD [], credit = 0) ∧
    ∀ i b, slice[i]? = some b → ∀ k,
      ((calls k).1.count (.ok (some i)) : ℚ) < k * b.weight.toNat / totalWeight slice + 1 := by
  intro calls
  have hne : slice ≠ [] := by rintro rfl; simp [totalWeight] at hW
  have hexact := fun n => run_exact .new (List.replicate n slice) (fits_replicate hne n) (hno n)
  simp only [List.map_replicate, credit_new] at hexact
  simp only [← roundOf_total] at hW ⊢
  refine ⟨fun i b hb n => ?_, fun m => ?_, fun i b hb k => ?_⟩
  · have hi : i ∈ (roundOf slice).keys := mem_roundOf.2 (List.getElem?_eq_some_iff.1 hb).1
    rw [(hexact _).1, ← List.map_drop, count_ok, wins_window (nodup_roundOf slice) hW hi, roundOf_weight hb]
  · exact eq_zero_of_slot ((hexact _).2.trans (run_mul_total (nodup_roundOf slice) hW m))
  · have hi : i ∈ (roundOf slice).keys := mem_roundOf.2 (List.getElem?_eq_some_iff.1 hb).1
    have hlt := wins_lt (nodup_roundOf slice) hW hi k
    rw [roundOf_weight hb] at hlt
    rw [(hexact _).1, count_ok]
    have hW' : (0 : ℚ) < (roundOf slice).total := by exact_mod_cast hW
    have hlt' : ((roundOf slice).total : ℚ) *
        (run step (fun _ => 0) (List.replicate k (roundOf slice))).1.count (some i) <
        k * b.weight.toNat + (roundOf slice).total := by exact_mod_cast hlt
    rw [div_add_one hW'.ne', lt_div_iff₀ hW', mul_comm]
    exact hlt'

/-- Weights 5, 1, 1: seven calls after the first three. -/
theorem select_proportional_5_1_1 :
    let slice : List Backend :=
      [⟨0, .v4 ⟨10, 0, 0, 1⟩ 80, 5⟩, ⟨1, .v4 ⟨10, 0, 0, 2⟩ 80, 1⟩, ⟨2, .v4 ⟨10, 0, 0, 3⟩ 80, 1⟩]
    ((run WeightedRoundRobin.select .new (List.replicate (3 + 7) slice)).1.drop 3).count (.ok (some 0)) = 5 := by
  intro slice
  exact (select_proportional slice (by decide) (noOverflow_replicate (by decide) (by decide))).1 0 _ rfl 3

end Gungho.Lb
