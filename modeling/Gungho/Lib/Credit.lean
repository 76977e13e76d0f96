/-
Smooth weighted scheduling by running credits, over any type of keys. In a round every listed key
gains its weight, the first key with the highest credit wins, and the winner pays the total weight
of the round. The rounds may list different keys with different weights.

Credits are bounded however the rounds are chosen: the invariant is a bound on the sum over every
set of keys, `2 · ∑ c ≤ W · |S| · (N − |S|)`. When every round is the same, each key wins
exactly its weight in any window as long as the total weight.
-/
import Gungho.Lib.Run
import Mathlib.Algebra.BigOperators.Ring.Finset
import Mathlib.Algebra.Order.BigOperators.Group.Finset
import Mathlib.Data.List.MinMax
import Mathlib.Data.List.Count
import Mathlib.Tactic

namespace Gungho.Lib.Credit

variable {κ : Type*} [DecidableEq κ]

/-- The keys that take part in a round, in order, and their weights. -/
structure Round (κ : Type*) where
  keys : List κ
  weight : κ → ℕ

namespace Round

/-- The total weight of a round. -/
def total (r : Round κ) : ℕ := (r.keys.map r.weight).sum

/-- The credits once every listed key has gained its weight. -/
def grow (r : Round κ) (c : κ → ℤ) : κ → ℤ := fun k => if k ∈ r.keys then c k + r.weight k else c k

/-- The first listed key with the highest grown credit. -/
def winner (r : Round κ) (c : κ → ℤ) : Option κ :=
  @List.argmax κ ℤ Int.instLinearOrder.toPreorder Int.decLt (r.grow c) r.keys

/-- The grown credits once `j` has paid the total weight. -/
def pay (r : Round κ) (c : κ → ℤ) (j : κ) : κ → ℤ := Function.update (r.grow c) j (r.grow c j - r.total)

end Round

/-- One round: the winner, and the credits after it paid. -/
def step (c : κ → ℤ) (r : Round κ) : Option κ × (κ → ℤ) :=
  match r.winner c with
  | none => (none, c)
  | some j => (some j, r.pay c j)

/-! ## One round -/

theorem grow_of_mem {r : Round κ} {k : κ} (h : k ∈ r.keys) (c : κ → ℤ) : r.grow c k = c k + r.weight k :=
  if_pos h

theorem grow_of_not_mem {r : Round κ} {k : κ} (h : k ∉ r.keys) (c : κ → ℤ) : r.grow c k = c k :=
  if_neg h

theorem le_grow (r : Round κ) (c : κ → ℤ) (k : κ) : c k ≤ r.grow c k := by
  unfold Round.grow; split <;> omega

theorem pay_self (r : Round κ) (c : κ → ℤ) (j : κ) : r.pay c j j = r.grow c j - r.total :=
  Function.update_self ..

theorem pay_ne {j k : κ} (h : k ≠ j) (r : Round κ) (c : κ → ℤ) : r.pay c j k = r.grow c k :=
  Function.update_of_ne h ..

/-- A round over no keys has no winner and changes nothing. -/
theorem step_nil {r : Round κ} (h : r.keys = []) (c : κ → ℤ) : step c r = (none, c) := by
  unfold step Round.winner; rw [h]; rfl

/-- A round over some keys is won by one of them, with a grown credit no other key exceeds. -/
theorem step_spec {r : Round κ} (h : r.keys ≠ []) (c : κ → ℤ) :
    ∃ j ∈ r.keys, r.winner c = some j ∧ step c r = (some j, r.pay c j) ∧
      ∀ k ∈ r.keys, r.grow c k ≤ r.grow c j := by
  rcases hw : r.winner c with _ | j
  · exact absurd (List.argmax_eq_none.1 hw) h
  · refine ⟨j, List.argmax_mem hw, rfl, ?_, fun k hk => List.le_of_mem_argmax hk hw⟩
    unfold step; rw [hw]

/-- A round does not touch the credits of the keys it does not list. -/
theorem step_of_not_mem {r : Round κ} {k : κ} (hk : k ∉ r.keys) (c : κ → ℤ) : (step c r).2 k = c k := by
  by_cases h : r.keys = []
  · rw [step_nil h]
  · obtain ⟨j, hj, -, hs, -⟩ := step_spec h c
    rw [hs]
    have hkj : k ≠ j := by rintro rfl; exact hk hj
    exact (pay_ne hkj r c).trans (grow_of_not_mem hk c)

theorem total_eq_sum {r : Round κ} (hn : r.keys.Nodup) : r.total = ∑ k ∈ r.keys.toFinset, r.weight k :=
  (List.sum_toFinset _ hn).symm

theorem weight_le_total {r : Round κ} (hn : r.keys.Nodup) {k : κ} (hk : k ∈ r.keys) : r.weight k ≤ r.total := by
  rw [total_eq_sum hn]
  exact Finset.single_le_sum (fun _ _ => Nat.zero_le _) (List.mem_toFinset.2 hk)

/-- A round won by `j` leaves the credits as `j` paid them. -/
theorem step_of_winner {r : Round κ} {c : κ → ℤ} {j : κ} (h : r.winner c = some j) :
    step c r = (some j, r.pay c j) := by
  unfold step; rw [h]

theorem sum_grow (r : Round κ) (c : κ → ℤ) (S : Finset κ) :
    ∑ k ∈ S, r.grow c k = ∑ k ∈ S, c k + ∑ k ∈ S with k ∈ r.keys, (r.weight k : ℤ) := by
  rw [Finset.sum_filter, ← Finset.sum_add_distrib]
  refine Finset.sum_congr rfl fun k _ => ?_
  unfold Round.grow; split <;> simp

/-- The weights gained inside any set of keys are at most the total. -/
theorem sum_gained_le {r : Round κ} (hn : r.keys.Nodup) (S : Finset κ) :
    ∑ k ∈ S with k ∈ r.keys, (r.weight k : ℤ) ≤ r.total := by
  rw [total_eq_sum hn]
  push_cast
  refine Finset.sum_le_sum_of_subset_of_nonneg (fun k hk => ?_) fun _ _ _ => by positivity
  exact List.mem_toFinset.2 (Finset.mem_filter.1 hk).2

theorem sum_pay_of_mem {j : κ} {S : Finset κ} (hj : j ∈ S) (r : Round κ) (c : κ → ℤ) :
    ∑ k ∈ S, r.pay c j k = ∑ k ∈ S, r.grow c k - r.total := by
  unfold Round.pay
  rw [Finset.sum_update_of_mem hj, ← Finset.add_sum_erase S _ hj, Finset.sdiff_singleton_eq_erase]
  ring

theorem sum_pay_of_not_mem {j : κ} {S : Finset κ} (hj : j ∉ S) (r : Round κ) (c : κ → ℤ) :
    ∑ k ∈ S, r.pay c j k = ∑ k ∈ S, r.grow c k :=
  Finset.sum_congr rfl fun k hk => pay_ne (fun e => hj (by rwa [← e])) r c

/-- A round keeps the sum of the credits: what the keys gain the winner pays. -/
theorem sum_step {r : Round κ} (hn : r.keys.Nodup) {U : Finset κ} (hU : ∀ k ∈ r.keys, k ∈ U) (c : κ → ℤ) :
    ∑ k ∈ U, (step c r).2 k = ∑ k ∈ U, c k := by
  by_cases h : r.keys = []
  · rw [step_nil h]
  · obtain ⟨j, hj, -, hs, -⟩ := step_spec h c
    have hP : U.filter (· ∈ r.keys) = r.keys.toFinset := by
      ext k; simpa using fun hk => hU k hk
    rw [hs, sum_pay_of_mem (hU j hj), sum_grow, hP, total_eq_sum hn]
    push_cast; ring

/-! ## Rounds chosen by an adversary -/

/-- No set of keys holds more than its share: `2 · ∑ c ≤ W · |S| · (N − |S|)` for every `S`
among the `N` keys of `U`. -/
def Bounded (U : Finset κ) (W : ℤ) (c : κ → ℤ) : Prop :=
  ∀ S ⊆ U, 2 * ∑ k ∈ S, c k ≤ W * (S.card * (U.card - S.card))

omit [DecidableEq κ] in
theorem bounded_zero {U : Finset κ} {W : ℤ} (hW : 0 ≤ W) : Bounded U W (fun _ => 0) := by
  intro S hS
  have h : (S.card : ℤ) ≤ U.card := by exact_mod_cast Finset.card_le_card hS
  have : (0 : ℤ) ≤ S.card * (U.card - S.card) := mul_nonneg (by positivity) (by linarith)
  simpa using mul_nonneg hW this

/-- A round keeps the bound on the sets that hold its winner: they pay at least what they gain. -/
theorem bounded_pay_of_mem {r : Round κ} (hn : r.keys.Nodup) {U : Finset κ} {W : ℤ} {c : κ → ℤ}
    (hb : Bounded U W c) {j : κ} {S : Finset κ} (hS : S ⊆ U) (hj : j ∈ S) :
    2 * ∑ k ∈ S, r.pay c j k ≤ W * (S.card * (U.card - S.card)) := by
  rw [sum_pay_of_mem hj, sum_grow]
  linarith [sum_gained_le hn S, hb S hS]

/-- A round of total weight at most `W` keeps the bound. A set without the winner that gained
something lies between two sets that keep theirs: one that holds the winner too, and one without
some key that took part and whose grown credit does not exceed the winner's. -/
theorem bounded_step {r : Round κ} (hn : r.keys.Nodup) {U : Finset κ} (hU : ∀ k ∈ r.keys, k ∈ U) {W : ℤ}
    (hW : (r.total : ℤ) ≤ W) {c : κ → ℤ} (hb : Bounded U W c) : Bounded U W (step c r).2 := by
  by_cases hr : r.keys = []
  · rw [step_nil hr]; exact hb
  obtain ⟨j, hj, -, hs, hmax⟩ := step_spec hr c
  rw [hs]
  intro S
  induction S using Finset.strongInduction with
  | H S ih =>
    intro hS
    by_cases hjS : j ∈ S
    · exact bounded_pay_of_mem hn hb hS hjS
    by_cases hP : ∃ i ∈ S, i ∈ r.keys
    · obtain ⟨i, hiS, hir⟩ := hP
      have hij : i ≠ j := fun e => hjS (e ▸ hiS)
      have hle := hmax i hir
      -- `S` lies between `S \ {i}` and `S ∪ {j}`, and `j` holds at least what `i` does before it pays
      have hbig := bounded_pay_of_mem hn hb (Finset.insert_subset (hU j hj) hS) (Finset.mem_insert_self j S)
      rw [Finset.sum_insert hjS, Finset.card_insert_of_notMem hjS, pay_self] at hbig
      have hsmall := ih (S.erase i) (Finset.erase_ssubset hiS) ((Finset.erase_subset i S).trans hS)
      have hsum := Finset.add_sum_erase S (r.pay c j) hiS
      rw [pay_ne hij] at hsum
      have hpos : 0 < S.card := Finset.card_pos.2 ⟨i, hiS⟩
      rw [Finset.card_erase_of_mem hiS, Nat.cast_sub hpos] at hsmall
      push_cast at hbig hsmall
      linarith
    · have h0 : ∑ k ∈ S with k ∈ r.keys, (r.weight k : ℤ) = 0 :=
        Finset.sum_eq_zero fun k hk =>
          absurd ⟨k, (Finset.mem_filter.1 hk).1, (Finset.mem_filter.1 hk).2⟩ hP
      have := hb S hS
      rw [sum_pay_of_not_mem hjS, sum_grow, h0]
      simpa using this

/-- Any rounds over the keys of `U`, each of total weight at most `W`, keep bound and sum. -/
theorem bounded_run {U : Finset κ} {W : ℤ} {c : κ → ℤ} (hb : Bounded U W c) (h0 : ∑ k ∈ U, c k = 0)
    (rs : List (Round κ)) (hrs : ∀ r ∈ rs, r.keys.Nodup ∧ (∀ k ∈ r.keys, k ∈ U) ∧ (r.total : ℤ) ≤ W) :
    Bounded U W (run step c rs).2 ∧ ∑ k ∈ U, (run step c rs).2 k = 0 :=
  inv_run (fun c => Bounded U W c ∧ ∑ k ∈ U, c k = 0)
    (fun _ _ hc hr => ⟨bounded_step hr.1 hr.2.1 hr.2.2 hc.1, (sum_step hr.1 hr.2.1 _).trans hc.2⟩) rs c ⟨hb, h0⟩
    (along_of_forall rs c hrs)

/-- With sum zero, the bound holds of every single credit in both directions. -/
theorem Bounded.single {U : Finset κ} {W : ℤ} {c : κ → ℤ} (hb : Bounded U W c) (h0 : ∑ k ∈ U, c k = 0)
    {k : κ} (hk : k ∈ U) : -(W * (U.card - 1)) ≤ 2 * c k ∧ 2 * c k ≤ W * (U.card - 1) := by
  have h1 := hb {k} (by simpa using hk)
  have h2 := hb (U.erase k) (Finset.erase_subset k U)
  have hpos : 0 < U.card := Finset.card_pos.2 ⟨k, hk⟩
  have hsum := Finset.add_sum_erase U c hk
  rw [Finset.card_erase_of_mem hk, Nat.cast_sub hpos] at h2
  rw [Finset.sum_singleton, Finset.card_singleton] at h1
  push_cast at h1 h2
  constructor <;> linarith

/-! ## The same round again and again -/

/-- The credit of a key after some rounds of one kind: its gains less what its wins cost. -/
theorem credit_replicate {r : Round κ} {k : κ} (hk : k ∈ r.keys) (n : ℕ) (c : κ → ℤ) :
    (run step c (List.replicate n r)).2 k =
      c k + n * r.weight k - r.total * (run step c (List.replicate n r)).1.count (some k) := by
  induction n generalizing c with
  | zero => simp
  | succ n ih =>
    have hne : r.keys ≠ [] := List.ne_nil_of_mem hk
    obtain ⟨j, hj, -, hs, -⟩ := step_spec hne c
    rw [List.replicate_succ, run_cons, hs]
    simp only [ih]
    by_cases hjk : j = k
    · subst hjk
      rw [List.count_cons_self, pay_self, grow_of_mem hk]
      push_cast; ring
    · rw [List.count_cons_of_ne (by simpa using hjk), pay_ne (Ne.symm hjk), grow_of_mem hk]
      push_cast; ring

section Fixed

variable {r : Round κ}

/-- Credits of the listed keys that sum to zero and lie above `-total`. -/
structure Level (r : Round κ) (c : κ → ℤ) : Prop where
  sum : ∑ k ∈ r.keys.toFinset, c k = 0
  floor : ∀ k ∈ r.keys, -(r.total : ℤ) < c k

theorem level_zero {r : Round κ} (hr : 0 < r.total) : Level r (fun _ => 0) :=
  ⟨by simp, fun _ _ => by omega⟩

/-- The winner's grown credit is at least the average, hence positive: it stays above `-total`
after it paid. -/
theorem level_step (hn : r.keys.Nodup) (hr : 0 < r.total) {c : κ → ℤ} (h : Level r c) : Level r (step c r).2 := by
  refine ⟨by rw [sum_step hn (by simp), h.sum], fun k hk => ?_⟩
  obtain ⟨j, hj, -, hs, hmax⟩ := step_spec (List.ne_nil_of_mem hk) c
  rw [hs]
  by_cases hkj : k = j
  · subst hkj
    have hgrow : ∑ i ∈ r.keys.toFinset, r.grow c i = r.total := by
      rw [sum_grow, h.sum, total_eq_sum hn, Finset.filter_true_of_mem (by simp)]
      push_cast; ring
    -- if the highest grown credit were not positive, neither would be their sum, the total
    have hpos : 0 < r.grow c k := by
      by_contra hneg
      have : ∑ i ∈ r.keys.toFinset, r.grow c i ≤ 0 :=
        Finset.sum_nonpos fun i hi => (hmax i (List.mem_toFinset.1 hi)).trans (not_lt.1 hneg)
      omega
    simp only [pay_self]; omega
  · simp only [pay_ne hkj]; exact lt_of_lt_of_le (h.floor k hk) (le_grow r c k)

theorem level_replicate (hn : r.keys.Nodup) (hr : 0 < r.total) (n : ℕ) {c : κ → ℤ} (h : Level r c) :
    Level r (run step c (List.replicate n r)).2 :=
  inv_run (Level r) (fun _ _ hc e => e ▸ level_step hn hr hc) _ c h
    (along_of_forall _ c fun _ hi => List.eq_of_mem_replicate hi)

/-- A key has won less than one win more than its share of the rounds played from zero. -/
theorem wins_lt (hn : r.keys.Nodup) (hr : 0 < r.total) {k : κ} (hk : k ∈ r.keys) (n : ℕ) :
    (r.total : ℤ) * (run step (fun _ => 0) (List.replicate n r)).1.count (some k) <
      n * r.weight k + r.total := by
  have h := (level_replicate hn hr n (level_zero hr)).floor k hk
  rw [credit_replicate hk] at h
  linarith

/-- Every round is won by a listed key: the wins of the listed keys add up to the rounds played. -/
theorem sum_wins (hn : r.keys.Nodup) (hr : 0 < r.total) (n : ℕ) :
    ∑ k ∈ r.keys.toFinset, (run step (fun _ => 0) (List.replicate n r)).1.count (some k) = n := by
  have h := (level_replicate hn hr n (level_zero hr)).sum
  rw [Finset.sum_congr rfl fun k hk => credit_replicate (List.mem_toFinset.1 hk) n _] at h
  have hW : ∑ k ∈ r.keys.toFinset, (r.weight k : ℤ) = r.total := by rw [total_eq_sum hn]; push_cast; rfl
  simp only [zero_add, Finset.sum_sub_distrib, ← Finset.mul_sum] at h
  rw [hW] at h
  have hr' : (0 : ℤ) < r.total := by exact_mod_cast hr
  have hsum : (r.total : ℤ) *
      ∑ k ∈ r.keys.toFinset, ((run step (fun _ => 0) (List.replicate n r)).1.count (some k) : ℤ) =
      r.total * n := by linarith
  exact_mod_cast mul_left_cancel₀ hr'.ne' hsum

/-- As many rounds from zero as the total weight: every key wins exactly its weight. -/
theorem wins_total (hn : r.keys.Nodup) (hr : 0 < r.total) {k : κ} (hk : k ∈ r.keys) :
    (run step (fun _ => 0) (List.replicate r.total r)).1.count (some k) = r.weight k := by
  have hle : ∀ i ∈ r.keys.toFinset,
      (run step (fun _ => 0) (List.replicate r.total r)).1.count (some i) ≤ r.weight i := by
    intro i hi
    have h := wins_lt hn hr (List.mem_toFinset.1 hi) r.total
    have hr' : (0 : ℤ) < r.total := by exact_mod_cast hr
    have : ((run step (fun _ => 0) (List.replicate r.total r)).1.count (some i) : ℤ) < r.weight i + 1 :=
      lt_of_mul_lt_mul_left (by linarith) hr'.le
    omega
  exact (Finset.sum_eq_sum_iff_of_le hle).1 (by rw [sum_wins hn hr, total_eq_sum hn]) k
    (List.mem_toFinset.2 hk)

/-- As many rounds from zero as the total weight bring every credit back to zero. -/
theorem run_total (hn : r.keys.Nodup) (hr : 0 < r.total) :
    (run step (fun _ => 0) (List.replicate r.total r)).2 = fun _ => 0 := by
  funext k
  by_cases hk : k ∈ r.keys
  · rw [credit_replicate hk, wins_total hn hr hk]; ring
  · have hstep : ∀ (c : κ → ℤ) (r' : Round κ), c k = 0 → r' = r → (step c r').2 k = 0 := by
      rintro c r' hc rfl
      rw [step_of_not_mem hk, hc]
    exact inv_run (fun c : κ → ℤ => c k = 0) hstep _ _ rfl
      (along_of_forall _ _ fun _ hi => List.eq_of_mem_replicate hi)

theorem run_mul_total (hn : r.keys.Nodup) (hr : 0 < r.total) (m : ℕ) :
    (run step (fun _ => 0) (List.replicate (m * r.total) r)).2 = fun _ => 0 := by
  induction m with
  | zero => simp
  | succ m ih => rw [Nat.succ_mul, List.replicate_add, run_append, ih, run_total hn hr]

/-- In any window as long as the total weight every key wins exactly its weight: the credits at
the window's end are those at its start. -/
theorem wins_window (hn : r.keys.Nodup) (hr : 0 < r.total) {k : κ} (hk : k ∈ r.keys) (n : ℕ) :
    ((run step (fun _ => 0) (List.replicate (n + r.total) r)).1.drop n).count (some k) = r.weight k := by
  have hsplit : (run step (fun _ => 0) (List.replicate (n + r.total) r)).1.drop n =
      (run step (run step (fun _ => 0) (List.replicate n r)).2 (List.replicate r.total r)).1 := by
    rw [drop_outputs, List.take_replicate, List.drop_replicate, Nat.add_sub_cancel_left,
      Nat.min_eq_left (Nat.le_add_right n _)]
  have hend : (run step (run step (fun _ => 0) (List.replicate n r)).2 (List.replicate r.total r)).2 =
      (run step (fun _ => 0) (List.replicate n r)).2 := by
    have h1 : (run step (fun _ => 0) (List.replicate (n + r.total) r)).2 =
        (run step (fun _ => 0) (List.replicate n r)).2 := by
      rw [Nat.add_comm, List.replicate_add, run_append, run_total hn hr]
    rwa [List.replicate_add, run_append] at h1
  have h := credit_replicate hk r.total (run step (fun _ => 0) (List.replicate n r)).2
  rw [hend] at h
  have hr' : (0 : ℤ) < r.total := by exact_mod_cast hr
  have hmul : (r.total : ℤ) *
      (run step (run step (fun _ => 0) (List.replicate n r)).2 (List.replicate r.total r)).1.count (some k) =
      r.total * r.weight k := by linarith
  rw [hsplit]
  exact_mod_cast mul_left_cancel₀ hr'.ne' hmul

end Fixed

/-- Over a stretch of equal rounds between two bounded states, the wins of a key stay within
`W · (N − 1)` of its share, both counted in units of the total. -/
theorem wins_of_bounded {r : Round κ} {k : κ} (hk : k ∈ r.keys) {U : Finset κ} (hkU : k ∈ U) {W : ℤ} {c : κ → ℤ}
    {n : ℕ} (hb : Bounded U W c) (h0 : ∑ i ∈ U, c i = 0)
    (hb' : Bounded U W (run step c (List.replicate n r)).2)
    (h0' : ∑ i ∈ U, (run step c (List.replicate n r)).2 i = 0) :
    |(r.total : ℤ) * (run step c (List.replicate n r)).1.count (some k) - n * r.weight k| ≤
      W * (U.card - 1) := by
  obtain ⟨l, u⟩ := hb.single h0 hkU
  obtain ⟨l', u'⟩ := hb'.single h0' hkU
  rw [credit_replicate hk] at l' u'
  rw [abs_le]
  constructor <;> linarith

/-! ## What a key gains and pays in any rounds -/

namespace Round

/-- What the key gains in the round. -/
def gain (r : Round κ) (k : κ) : ℕ := if k ∈ r.keys then r.weight k else 0

/-- What the key pays in the round if `o` won it. -/
def price (r : Round κ) (o : Option κ) (k : κ) : ℕ := if o = some k then r.total else 0

end Round

/-- What the key gains in the rounds. -/
def gained (rs : List (Round κ)) (k : κ) : ℕ := (rs.map (·.gain k)).sum

/-- What the key pays in the rounds if `os` won them. -/
def paid (rs : List (Round κ)) (os : List (Option κ)) (k : κ) : ℕ := (List.zipWith (·.price · k) rs os).sum

theorem grow_eq (r : Round κ) (c : κ → ℤ) (k : κ) : r.grow c k = c k + r.gain k := by
  unfold Round.grow Round.gain
  split <;> simp

theorem credit_step (c : κ → ℤ) (r : Round κ) (k : κ) :
    (step c r).2 k = c k + r.gain k - r.price (step c r).1 k := by
  rcases hw : r.winner c with _ | j
  · have hnil : r.keys = [] := List.argmax_eq_none.1 hw
    rw [step_nil hnil]
    simp [Round.gain, Round.price, hnil]
  · rw [step_of_winner hw]
    change r.pay c j k = c k + r.gain k - r.price (some j) k
    unfold Round.price
    by_cases hjk : j = k
    · subst hjk
      rw [pay_self, grow_eq, if_pos rfl]
    · rw [pay_ne (Ne.symm hjk), grow_eq, if_neg (by simpa using hjk), Nat.cast_zero, sub_zero]

/-- The credit of a key after any rounds: what it had and gained, less what it paid. -/
theorem credit_run (rs : List (Round κ)) (c : κ → ℤ) (k : κ) :
    (run step c rs).2 k = c k + gained rs k - paid rs (run step c rs).1 k := by
  induction rs generalizing c with
  | nil => simp [gained, paid]
  | cons r rs ih =>
    have hgained : gained (r :: rs) k = r.gain k + gained rs k := by simp [gained]
    have hpaid : paid (r :: rs) (run step c (r :: rs)).1 k =
        r.price (step c r).1 k + paid rs (run step (step c r).2 rs).1 k := by simp [paid, run_cons]
    rw [hgained, hpaid, run_cons]
    simp only [ih, credit_step]
    push_cast; ring

/-- Between two bounded states a key gains what it pays up to `W · (N − 1)`, however the rounds differ. -/
theorem gained_sub_paid {U : Finset κ} {k : κ} (hk : k ∈ U) {W : ℤ} {c : κ → ℤ} {rs : List (Round κ)}
    (hb : Bounded U W c) (h0 : ∑ i ∈ U, c i = 0) (hb' : Bounded U W (run step c rs).2)
    (h0' : ∑ i ∈ U, (run step c rs).2 i = 0) :
    |(gained rs k : ℤ) - paid rs (run step c rs).1 k| ≤ W * (U.card - 1) := by
  obtain ⟨l, u⟩ := hb.single h0 hk
  obtain ⟨l', u'⟩ := hb'.single h0' hk
  rw [credit_run] at l' u'
  rw [abs_le]
  constructor <;> linarith

/-- A key that wins no round pays nothing. -/
theorem paid_eq_zero {k : κ} : ∀ (rs : List (Round κ)) (os : List (Option κ)), some k ∉ os → paid rs os k = 0
  | [], _, _ => rfl
  | _ :: _, [], _ => rfl
  | r :: rs, o :: os, h => by
    obtain ⟨ho, hos⟩ := not_or.1 (mt List.mem_cons.2 h)
    have hprice : r.price o k = 0 := if_neg (Ne.symm ho)
    have hrest := paid_eq_zero rs os hos
    unfold paid at hrest ⊢
    rw [List.zipWith_cons_cons, List.sum_cons, hprice, hrest]

/-! ## Renaming the keys -/

section Rename

variable {lam : Type*} [DecidableEq lam]

theorem argmax_map {α β : Type*} (f : α → β) (g : β → ℤ) (l : List α) :
    (l.map f).argmax g = (l.argmax (g ∘ f)).map f := by
  induction l using List.reverseRecOn with
  | nil => rfl
  | append_singleton l a ih =>
    rw [List.map_append, List.map_singleton, List.argmax_concat, List.argmax_concat, ih]
    rcases l.argmax (g ∘ f) with _ | b
    · rfl
    · simp only [Option.map_some, Function.comp]
      split <;> rfl

theorem argmax_congr {α : Type*} {g h : α → ℤ} {l : List α} (e : ∀ a ∈ l, g a = h a) : l.argmax g = l.argmax h := by
  induction l using List.reverseRecOn with
  | nil => rfl
  | append_singleton l a ih =>
    rw [List.argmax_concat, List.argmax_concat, ih fun b hb => e b (by simp [hb])]
    rcases hm : l.argmax h with _ | b
    · rfl
    · simp only [e b (by simp [List.argmax_mem hm]), e a (by simp)]

/-- A round over renamed keys is the same round: the winner is renamed and the credits agree. -/
theorem step_rename {f : κ → lam} {U : Finset κ} (hf : Set.InjOn f U) {r : Round κ} {r' : Round lam}
    (hU : ∀ k ∈ r.keys, k ∈ U) (hkeys : r'.keys = r.keys.map f)
    (hw : ∀ k ∈ r.keys, r'.weight (f k) = r.weight k) {c : κ → ℤ} {c' : lam → ℤ} (hc : ∀ k ∈ U, c' (f k) = c k) :
    (step c' r').1 = (step c r).1.map f ∧ ∀ k ∈ U, (step c' r').2 (f k) = (step c r).2 k := by
  have hmem : ∀ k ∈ U, f k ∈ r'.keys ↔ k ∈ r.keys := by
    intro k hk
    rw [hkeys, List.mem_map]
    exact ⟨fun ⟨i, hi, e⟩ => hf (hU i hi) hk e ▸ hi, fun h => ⟨k, h, rfl⟩⟩
  have hgrow : ∀ k ∈ U, r'.grow c' (f k) = r.grow c k := by
    intro k hk
    by_cases h : k ∈ r.keys
    · rw [grow_of_mem ((hmem k hk).2 h), grow_of_mem h, hc k hk, hw k h]
    · rw [grow_of_not_mem (fun h' => h ((hmem k hk).1 h')), grow_of_not_mem h, hc k hk]
  have htotal : r'.total = r.total := by
    unfold Round.total
    rw [hkeys, List.map_map]
    exact congrArg List.sum (List.map_congr_left fun k hk => hw k hk)
  have hwin : r'.winner c' = (r.winner c).map f := by
    unfold Round.winner
    have hcomp : ∀ k ∈ r.keys, (r'.grow c' ∘ f) k = r.grow c k := fun k hk => hgrow k (hU k hk)
    rw [hkeys, argmax_map, argmax_congr hcomp]
  by_cases hr : r.keys = []
  · rw [step_nil hr, step_nil (by rw [hkeys, hr]; rfl)]
    exact ⟨rfl, hc⟩
  · obtain ⟨j, hj, hwj, hs, -⟩ := step_spec hr c
    rw [hwj] at hwin
    have hs' : step c' r' = (some (f j), r'.pay c' (f j)) := by unfold step; rw [hwin]; rfl
    rw [hs, hs']
    refine ⟨rfl, fun k hk => ?_⟩
    by_cases hkj : k = j
    · subst hkj
      simp only [pay_self, hgrow k hk, htotal]
    · have hfk : f k ≠ f j := fun e => hkj (hf hk (hU j hj) e)
      simp only [pay_ne hfk, pay_ne hkj, hgrow k hk]

end Rename

end Gungho.Lib.Credit
