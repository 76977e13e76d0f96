/-
Health changes as an adversary: whatever slices the calls get, none longer than the first, the
credits sum to zero and stay within `W * (N - 1) / 2`, where `W` bounds the slices' total weights
and `N` is the length of the first. So below `2 ^ 16` backends no `i64` operation overflows.
-/
import Gungho.Lb.Exact

namespace Gungho.Lb

open Gungho.Lib Gungho.Lib.Credit Gungho.Pool

/-- Credits of `N` slots that sum to zero, each within half of `W * (N - 1)`. -/
structure WithinDrift (N W : ℕ) (c : ℕ → ℤ) : Prop where
  sum : ∑ i ∈ Finset.range N, c i = 0
  bound : ∀ i < N, -((W : ℚ) * (N - 1) / 2) ≤ c i ∧ (c i : ℚ) ≤ W * (N - 1) / 2

theorem withinDrift_of_bounded {N W : ℕ} {c : ℕ → ℤ} (hb : Bounded (Finset.range N) W c)
    (h0 : ∑ i ∈ Finset.range N, c i = 0) : WithinDrift N W c := by
  refine ⟨h0, fun i hi => ?_⟩
  obtain ⟨hl, hu⟩ := hb.single h0 (Finset.mem_range.2 hi)
  rw [Finset.card_range] at hl hu
  have hl' : -((W : ℚ) * (N - 1)) ≤ 2 * c i := by exact_mod_cast hl
  have hu' : (2 : ℚ) * c i ≤ W * (N - 1) := by exact_mod_cast hu
  constructor <;> linarith

/-- The round of a slice of at most `N` backends and of total weight at most `W`. -/
theorem roundOf_fits {N W : ℕ} {slice : List Backend} (hlen : slice.length ≤ N) (hW : (roundOf slice).total ≤ W) :
    (roundOf slice).keys.Nodup ∧ (∀ k ∈ (roundOf slice).keys, k ∈ Finset.range N) ∧
      ((roundOf slice).total : ℤ) ≤ W :=
  ⟨nodup_roundOf slice, fun _ hk => Finset.mem_range.2 ((mem_roundOf.1 hk).trans_le hlen), by exact_mod_cast hW⟩

theorem rounds_fit {N W : ℕ} {slices : List (List Backend)} (hlen : ∀ s ∈ slices, s.length ≤ N)
    (hW : ∀ s ∈ slices, (roundOf s).total ≤ W) :
    ∀ r ∈ slices.map roundOf, r.keys.Nodup ∧ (∀ k ∈ r.keys, k ∈ Finset.range N) ∧ (r.total : ℤ) ≤ W := by
  rintro r hr
  obtain ⟨s, hs, rfl⟩ := List.mem_map.1 hr
  exact roundOf_fits (hlen s hs) (hW s hs)

/-! ## No overflow -/

/-- From bounded credits a call does not overflow: a credit grows to at most `W * (N + 1) / 2`. -/
theorem noOverflow_of_bounded {N W : ℕ} (hNW : W * (N + 1) < 2 ^ 64) {s : WeightedRoundRobin} {slice : List Backend}
    (hlen : slice.length ≤ N) (hW : (roundOf slice).total ≤ W) (hb : Bounded (Finset.range N) W s.credit)
    (h0 : ∑ i ∈ Finset.range N, s.credit i = 0) : NoOverflow s slice := by
  obtain ⟨hn, hU, hWz⟩ := roundOf_fits hlen hW
  have hNWz : (W : ℤ) * (N + 1) < 2 ^ 64 := by exact_mod_cast hNW
  have hsplit : (W : ℤ) * (N + 1) = W * (N - 1) + 2 * W := by ring
  refine ⟨fun i hi => ?_, ?_, fun j hj => ?_⟩
  · obtain ⟨-, hu⟩ := hb.single h0 (hU i hi)
    have hwi : ((roundOf slice).weight i : ℤ) ≤ (roundOf slice).total := by exact_mod_cast weight_le_total hn hi
    rw [Finset.card_range] at hu
    rw [grow_of_mem hi]
    linarith
  · -- on a non-empty slice `N` is positive, so `2 * W` is below `2 ^ 64`
    rcases Nat.eq_zero_or_pos slice.length with hz | hpos
    · rw [List.length_eq_zero_iff.1 hz]
      decide
    · have h2 : W * 2 ≤ W * (N + 1) := Nat.mul_le_mul_left W (by omega)
      omega
  · have hjr : j ∈ (roundOf slice).keys := List.argmax_mem hj
    -- the winner's payment leaves credits that are bounded again
    have hb' := bounded_step hn hU hWz hb
    have h0' := (sum_step hn hU s.credit).trans h0
    rw [step_of_winner hj] at hb' h0'
    obtain ⟨hl, -⟩ := hb'.single h0' (hU j hjr)
    rw [Finset.card_range] at hl
    have hW0 : (0 : ℤ) ≤ W := by positivity
    linarith

/-- A run on slices that have their slots, from bounded credits, does not overflow. -/
theorem along_noOverflow {N W : ℕ} (hNW : W * (N + 1) < 2 ^ 64) (slices : List (List Backend))
    (hlen : ∀ s ∈ slices, s.length ≤ N) (hW : ∀ s ∈ slices, (roundOf s).total ≤ W) (s : WeightedRoundRobin)
    (hfits : Fits (s.credits.map List.length) slices) (hb : Bounded (Finset.range N) W s.credit)
    (h0 : ∑ i ∈ Finset.range N, s.credit i = 0) : Along WeightedRoundRobin.select NoOverflow s slices := by
  induction slices generalizing s with
  | nil => trivial
  | cons slice slices ih =>
    rw [List.forall_mem_cons] at hlen hW
    have hno := noOverflow_of_bounded hNW hlen.1 hW.1 hb h0
    have hslots : slice.length ≤ (s.getOrInit slice).length := s.getOrInit_length slice ▸ fits_length hfits
    obtain ⟨-, hcredit⟩ := select_exact s hslots hno
    obtain ⟨hn, hU, hWz⟩ := roundOf_fits hlen.1 hW.1
    refine ⟨hno, ih hlen.2 hW.2 _ (WeightedRoundRobin.fits_select hfits) ?_ ?_⟩
    · rw [hcredit]; exact bounded_step hn hU hWz hb
    · rw [hcredit, sum_step hn hU, h0]

theorem roundOf_total_le (slice : List Backend) : (roundOf slice).total ≤ slice.length * (2 ^ 32 - 1) := by
  have hw : ∀ x ∈ (roundOf slice).keys.map (roundOf slice).weight, x ≤ 2 ^ 32 - 1 := by
    intro x hx
    obtain ⟨i, hi, rfl⟩ := List.mem_map.1 hx
    have hlen := mem_roundOf.1 hi
    rw [roundOf_weight (List.getElem?_eq_getElem hlen)]
    have := slice[i].weight.toNat_lt
    omega
  have h := List.sum_le_card_nsmul _ _ hw
  rwa [List.length_map, smul_eq_mul, show (roundOf slice).keys.length = slice.length from List.length_range] at h

/-- Below `2 ^ 16` backends the weights are too small to overflow. -/
theorem along_noOverflow_of_lt {N : ℕ} (hN : N < 2 ^ 16) {slices : List (List Backend)}
    (hlen : ∀ s ∈ slices, s.length ≤ N) (hfits : Fits (WeightedRoundRobin.new.credits.map List.length) slices) :
    Along WeightedRoundRobin.select NoOverflow .new slices := by
  have hNW : N * (2 ^ 32 - 1) * (N + 1) < 2 ^ 64 :=
    calc N * (2 ^ 32 - 1) * (N + 1)
        ≤ (2 ^ 16 - 1) * (2 ^ 32 - 1) * (2 ^ 16 - 1 + 1) := by gcongr <;> omega
      _ < 2 ^ 64 := by norm_num
  have hW : ∀ s ∈ slices, (roundOf s).total ≤ N * (2 ^ 32 - 1) := fun s hs =>
    (roundOf_total_le s).trans (Nat.mul_le_mul_right _ (hlen s hs))
  exact along_noOverflow hNW slices hlen hW .new hfits (credit_new ▸ bounded_zero (by positivity))
    (by simp [credit_new])

/-! ## The result -/

/-- From counts in units of the total to counts in units of one. -/
theorem share_le {V B : ℚ} (hV : 0 < V) {count k w : ℚ} (h : |V * count - k * w| ≤ B) :
    |count - k * w / V| ≤ B / V := by
  have hquot : count - k * w / V = (V * count - k * w) / V := by field_simp
  rw [hquot, abs_div, abs_of_pos hV]
  exact div_le_div_of_nonneg_right h hV.le

/-- Over a stretch of one slice in a run of bounded rounds the wins of a position stay within
`W * (N - 1) / V` of its share. -/
theorem stretch_share {N W : ℕ} {slices : List (List Backend)} (hlen : ∀ s ∈ slices, s.length ≤ N)
    (hW : ∀ s ∈ slices, (roundOf s).total ≤ W) {n k : ℕ} {slice : List Backend}
    (hstretch : (slices.drop n).take k = List.replicate k slice) (hV : 0 < (roundOf slice).total) {i : ℕ}
    (hi : i < slice.length) (hiN : i < N) :
    |((((run step (fun _ => 0) (slices.map roundOf)).1.drop n).take k).count (some i) : ℚ) -
        k * (roundOf slice).weight i / (roundOf slice).total| ≤ W * (N - 1) / (roundOf slice).total := by
  have hrounds := rounds_fit hlen hW
  have hbefore := bounded_run (bounded_zero (by positivity)) (by simp) ((slices.map roundOf).take n)
    fun r hr => hrounds r (List.mem_of_mem_take hr)
  have hsame : ((slices.map roundOf).drop n).take k = List.replicate k (roundOf slice) := by
    rw [← List.map_drop, ← List.map_take, hstretch, List.map_replicate]
  have hafter := bounded_run hbefore.1 hbefore.2 (List.replicate k (roundOf slice)) fun r hr =>
    hrounds r (List.mem_of_mem_drop (List.mem_of_mem_take (hsame ▸ hr)))
  rw [drop_outputs, take_outputs, hsame]
  have h := wins_of_bounded (mem_roundOf.2 hi) (Finset.mem_range.2 hiN) hbefore.1 hbefore.2 hafter.1 hafter.2
  rw [Finset.card_range] at h
  refine share_le (by exact_mod_cast hV) ?_
  exact_mod_cast h

/-- The credits sum to zero and do not drift, as integers in every run and in the code in every run
without overflow, which is every run below `2 ^ 16` backends; and so every backend gets its share of a
stretch of calls on one slice. -/
theorem credits_within_drift (first : List Backend) (rest : List (List Backend)) (hne : first ≠ [])
    (hlen : ∀ s ∈ rest, s.length ≤ first.length) (W : ℕ) (hW : ∀ s ∈ first :: rest, totalWeight s ≤ W) :
    let code := run WeightedRoundRobin.select .new (first :: rest)
    WithinDrift first.length W (run step (fun _ => 0) ((first :: rest).map roundOf)).2 ∧
      (first.length < 2 ^ 16 → Along WeightedRoundRobin.select NoOverflow .new (first :: rest)) ∧
      (Along WeightedRoundRobin.select NoOverflow .new (first :: rest) →
        (∃ credits, code.2.credits = some credits ∧ credits.length = first.length ∧
          WithinDrift first.length W (slot credits)) ∧
        ∀ n k slice, ((first :: rest).drop n).take k = List.replicate k slice → 0 < totalWeight slice →
          ∀ i b, slice[i]? = some b →
            |(((code.1.drop n).take k).count (.ok (some i)) : ℚ) - k * b.weight.toNat / totalWeight slice| ≤
              W * (first.length - 1) / totalWeight slice) := by
  intro code
  simp only [← roundOf_total] at hW ⊢
  have hlen' : ∀ s ∈ first :: rest, s.length ≤ first.length := List.forall_mem_cons.2 ⟨le_rfl, hlen⟩
  have hfits : Fits (WeightedRoundRobin.new.credits.map List.length) (first :: rest) := by
    unfold Fits
    rw [firstSlice_cons hne]
    exact hlen'
  have hzero : Bounded (Finset.range first.length) W (fun _ => 0) := bounded_zero (by positivity)
  have hexact := bounded_run hzero (by simp) ((first :: rest).map roundOf) (rounds_fit hlen' hW)
  refine ⟨withinDrift_of_bounded hexact.1 hexact.2, fun hN => along_noOverflow_of_lt hN hlen' hfits, fun hno => ?_⟩
  obtain ⟨hout, hcredit⟩ := run_exact .new (first :: rest) hfits hno
  obtain ⟨credits, hcredits, hlength⟩ := run_length hne rest
  have hslot : slot credits = (run step (fun _ => 0) ((first :: rest).map roundOf)).2 := by
    rw [← credit_new, ← hcredit]
    unfold WeightedRoundRobin.credit
    rw [hcredits, Option.getD_some]
  refine ⟨⟨credits, hcredits, hlength, hslot ▸ withinDrift_of_bounded hexact.1 hexact.2⟩, ?_⟩
  intro n k slice hstretch hV i b hb
  have hi := (List.getElem?_eq_some_iff.1 hb).1
  rw [show code.1 = _ from hout, ← roundOf_weight hb, ← List.map_drop, ← List.map_take, count_ok]
  rcases Nat.eq_zero_or_pos k with rfl | hk
  -- an empty stretch says nothing about its slice
  · have hN : (1 : ℚ) ≤ first.length := by exact_mod_cast List.length_pos_iff.2 hne
    have hbound : (0 : ℚ) ≤ W * (first.length - 1) / (roundOf slice).total :=
      div_nonneg (mul_nonneg (by positivity) (by linarith)) (by positivity)
    simpa using hbound
  · have hmem : slice ∈ ((first :: rest).drop n).take k := hstretch ▸ List.mem_replicate.2 ⟨hk.ne', rfl⟩
    have hslice := hlen' slice (List.mem_of_mem_drop (List.mem_of_mem_take hmem))
    exact stretch_share hlen' hW hstretch hV hi (hi.trans_le hslice)

/-- The first of two backends of weight 1 leaves and comes back. -/
theorem credits_within_drift_pair :
    let pair := BackendPool.pair.backends
    ∃ credits, (run WeightedRoundRobin.select .new [pair, pair.drop 1, pair]).2.credits = some credits ∧
      credits.length = 2 ∧ WithinDrift 2 2 (slot credits) := by
  intro pair
  have h := credits_within_drift pair [pair.drop 1, pair] (by decide) (by decide) 2 (by decide)
  exact (h.2.2 (h.2.1 (by decide))).1

end Gungho.Lb
