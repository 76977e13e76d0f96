/-
Fairness of the weighted strategy while backends fail and recover. The share of a position has no
meaning when every call may get another slice; what it gained and what its turns cost have. Over any
stretch of calls the two differ by at most `W * (N - 1)`, so a position that gained more had a turn.
-/
import Gungho.Lb.Drift

namespace Gungho.Lb

open Gungho.Lib Gungho.Lib.Credit Gungho.Pool

/-! ## Gains and costs of a position -/

/-- The weights that the slices have at the position, taken together. -/
def weightGained (i : ℕ) (slices : List (List Backend)) : ℕ :=
  (slices.map fun slice => slice[i]?.elim 0 (·.weight.toNat)).sum

/-- The total weights of the slices for which `select` answered the index. -/
def weightPaid (i : ℕ) (slices : List (List Backend)) (answers : List (Except Panic (Option ℕ))) : ℕ :=
  (List.zipWith (fun slice answer => if answer = .ok (some i) then totalWeight slice else 0) slices answers).sum

theorem gain_roundOf (slice : List Backend) (i : ℕ) :
    (roundOf slice).gain i = slice[i]?.elim 0 (·.weight.toNat) := by
  unfold Round.gain
  split
  · rfl
  · rename_i h
    rw [mem_roundOf, not_lt] at h
    rw [List.getElem?_eq_none h]
    rfl

theorem gained_roundOf (slices : List (List Backend)) (i : ℕ) :
    gained (slices.map roundOf) i = weightGained i slices := by
  unfold gained weightGained
  rw [List.map_map]
  exact congrArg List.sum (List.map_congr_left fun slice _ => gain_roundOf slice i)

theorem price_roundOf (slice : List Backend) (o : Option ℕ) (i : ℕ) :
    (roundOf slice).price o i =
      if (.ok o : Except Panic (Option ℕ)) = .ok (some i) then totalWeight slice else 0 := by
  unfold Round.price
  rw [roundOf_total]
  simp only [Except.ok.injEq]

theorem paid_roundOf (slices : List (List Backend)) (os : List (Option ℕ)) (i : ℕ) :
    paid (slices.map roundOf) os i = weightPaid i slices (os.map .ok) := by
  unfold paid weightPaid
  rw [List.zipWith_map_left, List.zipWith_map_right]
  simp only [price_roundOf]

/-! ## The result -/

/-- The calls of a stretch, as rounds from the credits at its start. -/
theorem stretch_exact {slices : List (List Backend)}
    (hfits : Fits (WeightedRoundRobin.new.credits.map List.length) slices)
    (hno : Along WeightedRoundRobin.select NoOverflow .new slices) (n k : ℕ) :
    (((run WeightedRoundRobin.select .new slices).1.drop n).take k) =
      (run step (run step (fun _ => 0) ((slices.take n).map roundOf)).2
        (((slices.drop n).take k).map roundOf)).1.map .ok := by
  rw [(run_exact .new slices hfits hno).1, credit_new, ← List.map_drop, ← List.map_take, drop_outputs, take_outputs,
    List.map_take, List.map_take, List.map_drop]

/-- Over any stretch of calls, whatever slices they get, what a position gained and what its turns
cost differ by at most `W * (N - 1)`. So a position that gained more than that was returned. -/
theorem select_fair (first : List Backend) (rest : List (List Backend)) (hne : first ≠ [])
    (hlen : ∀ s ∈ rest, s.length ≤ first.length) (W : ℕ) (hW : ∀ s ∈ first :: rest, totalWeight s ≤ W)
    (hno : Along WeightedRoundRobin.select NoOverflow .new (first :: rest)) (n k i : ℕ) (hi : i < first.length) :
    let stretch := ((first :: rest).drop n).take k
    let answers := ((run WeightedRoundRobin.select .new (first :: rest)).1.drop n).take k
    |(weightGained i stretch : ℤ) - weightPaid i stretch answers| ≤ W * (first.length - 1) ∧
      (W * (first.length - 1) < weightGained i stretch → .ok (some i) ∈ answers) := by
  intro stretch answers
  have hlen' : ∀ s ∈ first :: rest, s.length ≤ first.length := List.forall_mem_cons.2 ⟨le_rfl, hlen⟩
  have hfits : Fits (WeightedRoundRobin.new.credits.map List.length) (first :: rest) := by
    unfold Fits
    rw [firstSlice_cons hne]
    exact hlen'
  simp only [← roundOf_total] at hW
  have hbefore := bounded_run (bounded_zero (by positivity)) (by simp) (((first :: rest).take n).map roundOf)
    (rounds_fit (fun s hs => hlen' s (List.mem_of_mem_take hs)) fun s hs => hW s (List.mem_of_mem_take hs))
  have hafter := bounded_run hbefore.1 hbefore.2 (stretch.map roundOf)
    (rounds_fit (fun s hs => hlen' s (List.mem_of_mem_drop (List.mem_of_mem_take hs)))
      fun s hs => hW s (List.mem_of_mem_drop (List.mem_of_mem_take hs)))
  have hfair := gained_sub_paid (Finset.mem_range.2 hi) hbefore.1 hbefore.2 hafter.1 hafter.2
  have hanswers : answers = _ := stretch_exact hfits hno n k
  rw [gained_roundOf, paid_roundOf, ← hanswers, Finset.card_range] at hfair
  refine ⟨hfair, fun hgain => ?_⟩
  by_contra hmem
  have hpaid : weightPaid i stretch answers = 0 := by
    rw [hanswers] at hmem ⊢
    rw [← paid_roundOf]
    exact paid_eq_zero _ _ fun h => hmem (List.mem_map_of_mem h)
  have hpos : 0 < first.length := List.length_pos_iff.2 hne
  rw [hpaid, Nat.cast_zero, sub_zero, Nat.abs_cast] at hfair
  have : (W : ℤ) * (first.length - 1) < weightGained i stretch := by
    rw [← Nat.cast_pred hpos]
    exact_mod_cast hgain
  exact absurd hfair (not_le.2 this)

/-- Two backends of weight 1, of which the second leaves for one call: within three calls that have a
first backend its position is returned. -/
theorem select_fair_pair :
    let pair := BackendPool.pair.backends
    .ok (some 0) ∈ ((run WeightedRoundRobin.select .new [pair, pair, pair.take 1, pair]).1.drop 1).take 3 := by
  intro pair
  have hno : Along WeightedRoundRobin.select NoOverflow .new [pair, pair, pair.take 1, pair] :=
    along_noOverflow_of_lt (show 2 < 2 ^ 16 by decide) (by decide) (by unfold Fits; decide)
  exact (select_fair pair [pair, pair.take 1, pair] (by decide) (by decide) 2 (by decide) hno 1 3 0 (by decide)).2
    (by decide)

end Gungho.Lb
