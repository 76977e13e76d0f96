/-
Residues of consecutive numbers, and of a counter that itself wraps at a modulus. Among `n`
consecutive numbers every residue modulo `n` occurs once; across the wrap of a counter at `M` it
occurs at most twice, as the window is two stretches of consecutive numbers.
-/
import Mathlib.Data.Int.CardIntervalMod

namespace Gungho.Lib.Residue

/-! ## Lists of values -/

theorem count_map_range (f : ℕ → ℕ) (i m : ℕ) : ((List.range m).map f).count i = Nat.count (fun j => f j = i) m := by
  rw [List.count, List.countP_map, Nat.count]
  exact List.countP_congr fun j _ => by simp

/-- A stretch of the values of `f` is the values from its position on. -/
theorem stretch_eq {f : ℕ → ℕ} {k : ℕ} {before window after : List ℕ}
    (h : (List.range k).map f = before ++ window ++ after) :
    window = (List.range window.length).map fun j => f (before.length + j) := by
  refine List.ext_getElem (by simp) fun j hj _ => ?_
  have hget : (before ++ window ++ after)[before.length + j]? = some window[j] := by
    rw [List.append_assoc, List.getElem?_append_right (by omega), Nat.add_sub_cancel_left,
      List.getElem?_append_left hj, List.getElem?_eq_getElem hj]
  rw [← h, List.getElem?_map, Option.map_eq_some_iff] at hget
  obtain ⟨l, hl, hfl⟩ := hget
  obtain ⟨_, hpos⟩ := List.getElem?_eq_some_iff.1 hl
  rw [List.getElem_range] at hpos
  rw [← hfl, ← hpos, List.getElem_map, List.getElem_range]

/-! ## Consecutive numbers -/

/-- How many of the `m` consecutive numbers from `a` leave the residue `i` modulo `n`. -/
def hits (n i a m : ℕ) : ℕ := Nat.count (fun j => (a + j) % n = i) m

variable {n i : ℕ}

/-- The numbers from `0` on. -/
theorem hits_zero (hi : i < n) (k : ℕ) : hits n i 0 k = k / n + if i < k % n then 1 else 0 := by
  have hn : 0 < n := by omega
  have hmod : ∀ j, (0 + j) % n = i ↔ j ≡ i [MOD n] := fun j => by
    rw [Nat.zero_add, Nat.ModEq, Nat.mod_eq_of_lt hi]
  unfold hits
  simp only [hmod]
  rw [Nat.count_modEq_card k hn i, Nat.mod_eq_of_lt hi]

/-- A stretch after another. -/
theorem hits_add (n i a m l : ℕ) : hits n i a (m + l) = hits n i a m + hits n i (a + m) l := by
  unfold hits
  rw [Nat.count_add]
  simp only [Nat.add_assoc]

/-- A whole period has every residue once. -/
theorem hits_period (hi : i < n) (a : ℕ) : hits n i a n = 1 := by
  have hsplit := hits_add n i 0 a n
  rw [Nat.zero_add, hits_zero hi, hits_zero hi a, Nat.add_mod_right, Nat.add_div_right _ (by omega)] at hsplit
  omega

/-- Less than a period has a residue at most once. -/
theorem hits_le_one (hi : i < n) {m : ℕ} (hm : m ≤ n) (a : ℕ) : hits n i a m ≤ 1 := by
  have hsplit := hits_add n i a m (n - m)
  rw [Nat.add_sub_cancel' hm, hits_period hi] at hsplit
  omega

/-- The first `k` numbers have a residue `k / n` times, rounded down or up. -/
theorem hits_zero_floor_or_ceil (hi : i < n) (k : ℕ) : hits n i 0 k = k / n ∨ hits n i 0 k = (k + n - 1) / n := by
  rw [hits_zero hi]
  split
  · rename_i hlt
    right
    have hdiv : k = n * (k / n) + k % n := (Nat.div_add_mod k n).symm
    have hceil : k + n - 1 = (k % n - 1) + n * (k / n + 1) := by rw [Nat.mul_add]; omega
    have hsmall : (k % n - 1) / n = 0 := Nat.div_eq_of_lt (by have := Nat.mod_lt k (by omega : 0 < n); omega)
    rw [hceil, Nat.add_mul_div_left _ _ (by omega), hsmall, Nat.zero_add]
  · exact .inl (Nat.add_zero _)

theorem hits_periods (hi : i < n) (a q : ℕ) : hits n i a (n * q) = q := by
  induction q with
  | zero => rfl
  | succ q ih => rw [Nat.mul_succ, hits_add, ih, hits_period hi]

/-- Any `k` numbers in a row have a residue `k / n` times, rounded down or up. -/
theorem hits_bounds (hi : i < n) (a k : ℕ) : k / n ≤ hits n i a k ∧ hits n i a k ≤ (k + n - 1) / n := by
  have hsplit := hits_add n i a (n * (k / n)) (k % n)
  rw [Nat.div_add_mod, hits_periods hi] at hsplit
  refine ⟨by omega, (Nat.le_div_iff_mul_le (by omega)).2 ?_⟩
  have hk := Nat.div_add_mod k n
  have hone := hits_le_one hi (Nat.mod_lt k (by omega)).le (a + n * (k / n))
  rw [hsplit, Nat.add_mul, Nat.mul_comm (k / n)]
  rcases Nat.eq_zero_or_pos (k % n) with hzero | hpos
  · have hnone : hits n i (a + n * (k / n)) (k % n) = 0 := by rw [hzero]; rfl
    rw [hnone]
    omega
  · have hle := Nat.mul_le_mul_right n hone
    omega

/-! ## A counter that wraps at `M` -/

/-- How many of `m` consecutive values of the counter from `c` on leave the residue `i` modulo `n`. -/
def wrapped (M n i c m : ℕ) : ℕ := Nat.count (fun j => (c + j) % M % n = i) m

variable {M c m : ℕ}

theorem wrapped_succ (M n i c m : ℕ) :
    wrapped M n i c (m + 1) = wrapped M n i c m + if (c + m) % M % n = i then 1 else 0 :=
  Nat.count_succ ..

/-- Up to the wrap the values are consecutive numbers. -/
theorem wrapped_of_le (h : c + m ≤ M) : wrapped M n i c m = hits n i c m := by
  unfold wrapped hits
  rw [Nat.count, Nat.count]
  refine List.countP_congr fun j hj => ?_
  rw [List.mem_range] at hj
  rw [Nat.mod_eq_of_lt (by omega : c + j < M)]

/-- A wrap at a multiple of `n` does not show in the residues. -/
theorem wrapped_of_dvd (h : n ∣ M) : wrapped M n i c m = hits n i c m := by
  unfold wrapped hits
  simp only [Nat.mod_mod_of_dvd _ h]

/-- The values before the wrap and those after it. -/
theorem wrapped_split (hc : c ≤ M) (hm : M - c ≤ m) :
    wrapped M n i c m = hits n i c (M - c) + wrapped M n i 0 (m - (M - c)) := by
  have hlen : m = (M - c) + (m - (M - c)) := by omega
  have hwrap : ∀ j, (c + (M - c + j)) % M = (0 + j) % M := fun j => by
    rw [← Nat.add_assoc, Nat.add_sub_cancel' hc, Nat.add_mod_left, Nat.zero_add]
  rw [← wrapped_of_le (Nat.le_of_eq (Nat.add_sub_cancel' hc))]
  unfold wrapped
  conv_lhs => rw [hlen]
  rw [Nat.count_add]
  simp only [hwrap]

/-- Over one period of `n` values the counter wraps at most once. -/
theorem wrapped_le_two (hi : i < n) (hn : n ≤ M) (hc : c < M) : wrapped M n i c n ≤ 2 := by
  by_cases hwrap : c + n ≤ M
  · rw [wrapped_of_le hwrap, hits_period hi]
    omega
  · rw [wrapped_split (Nat.le_of_lt hc) (by omega), wrapped_of_le (by omega)]
    have hbefore := hits_le_one hi (m := M - c) (by omega) c
    have hafter := hits_le_one hi (m := n - (M - c)) (by omega) 0
    omega

theorem wrapped_eq_one (hi : i < n) (h : c + n ≤ M ∨ n ∣ M) : wrapped M n i c n = 1 := by
  rcases h with hle | hdvd
  · rw [wrapped_of_le hle, hits_period hi]
  · rw [wrapped_of_dvd hdvd, hits_period hi]

/-! ## Two moduli -/

/-- When every number below `L` that leaves `i` modulo `n` leaves `j` modulo `m`: if there is none, or if `i` itself
does and it is the only one, or `m` divides `n`. -/
theorem forall_mod_iff {L m j : ℕ} (hi : i < n) :
    (∀ h < L, h % n = i → h % m = j) ↔ L ≤ i ∨ i % m = j ∧ (m ∣ n ∨ L ≤ i + n) := by
  constructor
  · intro h
    by_cases hL : L ≤ i
    · exact .inl hL
    · have hown : i % m = j := h i (by omega) (Nat.mod_eq_of_lt hi)
      refine .inr ⟨hown, ?_⟩
      by_cases hL' : L ≤ i + n
      · exact .inr hL'
      · -- the next number that leaves `i`
        have hnext : (i + n) % m = j := h (i + n) (by omega) (by rw [Nat.add_mod_right, Nat.mod_eq_of_lt hi])
        have hcongr : i + n ≡ i + 0 [MOD m] := hnext.trans hown.symm
        exact .inl (Nat.modEq_zero_iff_dvd.1 hcongr.add_left_cancel')
  · rintro (hL | ⟨hown, hdvd | hL⟩) h hlt hmod
    · have hle : i ≤ h := hmod ▸ Nat.mod_le h n
      omega
    · rw [← Nat.mod_mod_of_dvd h hdvd, hmod, hown]
    · -- no other number below `L` leaves `i`
      have hself : h = i := by
        have hdiv := Nat.div_add_mod h n
        rcases Nat.eq_zero_or_pos (h / n) with hzero | hpos
        · rw [hzero] at hdiv
          omega
        · have hle := Nat.mul_le_mul_left n hpos
          omega
      rw [hself, hown]

end Gungho.Lib.Residue
