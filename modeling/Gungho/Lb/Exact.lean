/-
The weighted strategy as rounds over positions: as long as no `i64` operation of a call overflows,
`select` is one round of running credits whose keys are the positions of the slice.
-/
import Gungho.Lib.Credit
import Gungho.Lb.WeightedRoundRobin

namespace Gungho.Lb

open Gungho.Lib Gungho.Lib.Credit Gungho.Pool

/-! ## `i64` operations in range -/

theorem toInt_add_of_range {a b : Int64} (hl : -2 ^ 63 ≤ a.toInt + b.toInt) (hu : a.toInt + b.toInt < 2 ^ 63) :
    (a + b).toInt = a.toInt + b.toInt := by
  rw [Int64.toInt_add]
  exact Int.bmod_eq_of_le (by omega) (by omega)

theorem toInt_sub_of_range {a b : Int64} (hl : -2 ^ 63 ≤ a.toInt - b.toInt) (hu : a.toInt - b.toInt < 2 ^ 63) :
    (a - b).toInt = a.toInt - b.toInt := by
  rw [Int64.toInt_sub]
  exact Int.bmod_eq_of_le (by omega) (by omega)

theorem toInt_weight (b : Backend) : (WeightedRoundRobin.weight b).toInt = b.weight.toNat :=
  Int64.toInt_ofNat_of_lt (b.weight.toNat_lt.trans (by decide))

/-! ## Slices as rounds -/

/-- A slice as a round: its positions with the weights of the backends there. -/
def roundOf (slice : List Backend) : Round ℕ :=
  ⟨List.range slice.length, fun i => slice[i]?.elim 0 (·.weight.toNat)⟩

theorem mem_roundOf {slice : List Backend} {i : ℕ} : i ∈ (roundOf slice).keys ↔ i < slice.length := List.mem_range

theorem roundOf_keys_ne {slice : List Backend} (h : slice ≠ []) : (roundOf slice).keys ≠ [] := by
  simpa [roundOf] using h

theorem nodup_roundOf (slice : List Backend) : (roundOf slice).keys.Nodup := List.nodup_range

theorem roundOf_weight {slice : List Backend} {i : ℕ} {b : Backend} (h : slice[i]? = some b) :
    (roundOf slice).weight i = b.weight.toNat := by
  simp [roundOf, h]

def totalWeight (slice : List Backend) : ℕ := (slice.map (·.weight.toNat)).sum

theorem roundOf_total (slice : List Backend) : (roundOf slice).total = totalWeight slice := by
  have hmap : (roundOf slice).keys.map (roundOf slice).weight = slice.map (·.weight.toNat) :=
    List.ext_getElem (by simp [roundOf]) fun i h _ => by simp [roundOf] at h ⊢; simp [h]
  unfold Round.total totalWeight
  rw [hmap]

/-- The value of a slot; a slot that does not exist yet counts 0. -/
def slot (credits : List Int64) (i : ℕ) : ℤ := (credits[i]?.getD 0).toInt

theorem slot_set {credits : List Int64} {j : ℕ} (hj : j < credits.length) (v : Int64) (i : ℕ) :
    slot (credits.set j v) i = if i = j then v.toInt else slot credits i := by
  unfold slot
  rw [List.getElem?_set]
  by_cases h : j = i
  · subst h; simp [hj]
  · simp [h, Ne.symm h]

/-- The credit of a position. -/
def WeightedRoundRobin.credit (s : WeightedRoundRobin) : ℕ → ℤ := slot (s.credits.getD [])

@[simp] theorem credit_new : WeightedRoundRobin.new.credit = fun _ => 0 := rfl

theorem slot_getOrInit (s : WeightedRoundRobin) (slice : List Backend) : slot (s.getOrInit slice) = s.credit := by
  rcases s with ⟨_ | credits⟩
  · funext i
    simp only [slot, WeightedRoundRobin.credit, WeightedRoundRobin.getOrInit, Option.getD_none,
      List.getElem?_replicate]
    split <;> rfl
  · rfl

/-- Every `i64` operation of a call of `select` has its mathematical result in range: the additions
to the credits, the total, and the winner's payment. -/
structure NoOverflow (s : WeightedRoundRobin) (slice : List Backend) : Prop where
  add : ∀ i ∈ (roundOf slice).keys, (roundOf slice).grow s.credit i < 2 ^ 63
  total : (roundOf slice).total < 2 ^ 63
  sub : ∀ j, (roundOf slice).winner s.credit = some j → -2 ^ 63 ≤ (roundOf slice).pay s.credit j j

/-! ## The loop -/

/-- The loop's variables once it has visited the first `m` positions. -/
structure Scanned (credits : List Int64) (r : Round ℕ) (m : ℕ) (t : WeightedRoundRobin.Scan) : Prop where
  length : t.credits.length = credits.length
  slots : ∀ i, slot t.credits i = if i < m then slot credits i + r.weight i else slot credits i
  total : t.totalWeight.toInt = ((List.range m).map r.weight).sum
  first : m = 0 → t.bestIndex = 0 ∧ t.bestCredit = Int64.minValue
  best : 0 < m → @List.argmax ℕ ℤ Int.instLinearOrder.toPreorder Int.decLt (r.grow (slot credits)) (List.range m) =
    some t.bestIndex ∧ t.bestCredit.toInt = r.grow (slot credits) t.bestIndex

theorem scanned_start (credits : List Int64) (r : Round ℕ) : Scanned credits r 0 (.start credits) :=
  ⟨rfl, fun _ => by simp [WeightedRoundRobin.Scan.start], rfl, fun _ => ⟨rfl, rfl⟩, fun h => by omega⟩

/-- Visiting position `m` keeps the first position with the highest credit so far. -/
theorem best_visit {credits : List Int64} {r : Round ℕ} {m : ℕ} {t : WeightedRoundRobin.Scan}
    (h : Scanned credits r m t) {b : Backend} {credit : Int64}
    (hnew : (credit + WeightedRoundRobin.weight b).toInt = r.grow (slot credits) m) :
    @List.argmax ℕ ℤ Int.instLinearOrder.toPreorder Int.decLt (r.grow (slot credits)) (List.range (m + 1)) =
      some (t.visit m b credit).bestIndex ∧
      (t.visit m b credit).bestCredit.toInt = r.grow (slot credits) (t.visit m b credit).bestIndex := by
  have hlt : t.bestCredit < credit + WeightedRoundRobin.weight b ↔ t.bestCredit.toInt < r.grow (slot credits) m := by
    rw [Int64.lt_iff_toInt_lt, hnew]
  rw [List.range_succ, List.argmax_concat]
  unfold WeightedRoundRobin.Scan.visit
  dsimp only
  rcases Nat.eq_zero_or_pos m with rfl | hpos
  · -- a first credit of `i64::MIN` does not beat the sentinel, but index and value are then its own
    obtain ⟨hindex, hcr⟩ := h.first rfl
    have hlow := (credit + WeightedRoundRobin.weight b).le_toInt
    rw [hcr, Int64.toInt_minValue] at hlt
    rw [hindex, hcr]
    by_cases hwin : -2 ^ 63 < r.grow (slot credits) 0
    · rw [if_pos (hlt.2 hwin), if_pos (hlt.2 hwin)]
      exact ⟨rfl, hnew⟩
    · rw [if_neg (mt hlt.1 hwin), if_neg (mt hlt.1 hwin), Int64.toInt_minValue]
      exact ⟨rfl, by omega⟩
  · -- a tie keeps the earlier position, as `argmax` does
    obtain ⟨hbest, hcr⟩ := h.best hpos
    rw [hcr] at hlt
    rw [hbest]
    dsimp only
    by_cases hwin : r.grow (slot credits) t.bestIndex < r.grow (slot credits) m
    · rw [if_pos hwin, if_pos (hlt.2 hwin), if_pos (hlt.2 hwin)]
      exact ⟨rfl, hnew⟩
    · rw [if_neg hwin, if_neg (mt hlt.1 hwin), if_neg (mt hlt.1 hwin)]
      exact ⟨rfl, hcr⟩

/-- Visiting position `m` adds its weight to its slot and to the total. -/
theorem scanned_visit {credits : List Int64} {slice : List Backend}
    (hadd : ∀ i ∈ (roundOf slice).keys, (roundOf slice).grow (slot credits) i < 2 ^ 63)
    (htotal : (roundOf slice).total < 2 ^ 63) {m : ℕ} {t : WeightedRoundRobin.Scan}
    (h : Scanned credits (roundOf slice) m t) {b : Backend} (hb : slice[m]? = some b) {credit : Int64}
    (hc : t.credits[m]? = some credit) : Scanned credits (roundOf slice) (m + 1) (t.visit m b credit) := by
  have hm : m < slice.length := (List.getElem?_eq_some_iff.1 hb).1
  have hmt : m < t.credits.length := (List.getElem?_eq_some_iff.1 hc).1
  have hcredit : credit.toInt = slot credits m := by
    have := h.slots m
    simpa [slot, hc] using this
  have hgrow : (roundOf slice).grow (slot credits) m = slot credits m + b.weight.toNat := by
    rw [grow_of_mem (mem_roundOf.2 hm), roundOf_weight hb]
  have hnew : (credit + WeightedRoundRobin.weight b).toInt = (roundOf slice).grow (slot credits) m := by
    have hlow := credit.le_toInt
    have hup := hadd m (mem_roundOf.2 hm)
    rw [hgrow, ← hcredit] at hup ⊢
    rw [toInt_add_of_range] <;> rw [toInt_weight]
    · omega
    · exact hup
  have hsum : ((List.range (m + 1)).map (roundOf slice).weight).sum =
      ((List.range m).map (roundOf slice).weight).sum + b.weight.toNat := by
    rw [List.range_succ, List.map_append, List.sum_append, List.map_singleton, List.sum_singleton, roundOf_weight hb]
  have hpart : ((List.range (m + 1)).map (roundOf slice).weight).sum ≤ (roundOf slice).total :=
    ((List.range_sublist.2 hm).map _).sum_le_sum fun _ _ => Nat.zero_le _
  refine ⟨by rw [WeightedRoundRobin.visit_length, h.length], fun i => ?_, ?_, fun h => by omega,
    fun _ => best_visit h hnew⟩
  · unfold WeightedRoundRobin.Scan.visit
    dsimp only
    rw [slot_set hmt, h.slots i, hnew, hgrow]
    by_cases hi : i = m
    · subst hi
      simp [roundOf_weight hb]
    · rw [if_neg hi]
      exact if_congr (by omega) rfl rfl
  · unfold WeightedRoundRobin.Scan.visit
    dsimp only
    rw [toInt_add_of_range] <;> rw [h.total, toInt_weight]
    · rw [hsum]; push_cast; rfl
    · omega
    · omega

theorem scan_exact {credits : List Int64} {slice : List Backend}
    (hadd : ∀ i ∈ (roundOf slice).keys, (roundOf slice).grow (slot credits) i < 2 ^ 63)
    (htotal : (roundOf slice).total < 2 ^ 63) (hslots : slice.length ≤ credits.length) (rest : List Backend) (m : ℕ)
    (hrest : slice.drop m = rest) (hm : m ≤ slice.length) (t : WeightedRoundRobin.Scan)
    (h : Scanned credits (roundOf slice) m t) :
    ∃ t', WeightedRoundRobin.scan t m rest = (none, t') ∧ Scanned credits (roundOf slice) slice.length t' := by
  induction rest generalizing m t with
  | nil =>
    have hlen : m = slice.length := by have := List.drop_eq_nil_iff.1 hrest; omega
    exact ⟨t, rfl, hlen ▸ h⟩
  | cons b rest ih =>
    obtain ⟨hb, hnext⟩ := drop_cons hrest
    have hlt : m < slice.length := (List.getElem?_eq_some_iff.1 hb).1
    have hmt : m < t.credits.length := by rw [h.length]; omega
    have hc : t.credits[m]? = some t.credits[m] := List.getElem?_eq_getElem hmt
    unfold WeightedRoundRobin.scan
    rw [hc]
    exact ih (m + 1) hnext hlt _ (scanned_visit hadd htotal h hb hc)

/-! ## One call -/

/-- A call without overflow on a slice that has its slots is a round over the slice's positions. -/
theorem select_exact (s : WeightedRoundRobin) {slice : List Backend}
    (hslots : slice.length ≤ (s.getOrInit slice).length) (h : NoOverflow s slice) :
    (s.select slice).1 = .ok (step s.credit (roundOf slice)).1 ∧
      (s.select slice).2.credit = (step s.credit (roundOf slice)).2 := by
  by_cases hne : slice = []
  · subst hne
    rw [WeightedRoundRobin.select_nil, step_nil rfl]
    exact ⟨rfl, rfl⟩
  have hpos := List.length_pos_iff.2 hne
  have hcredit := slot_getOrInit s slice
  obtain ⟨t, hscan, ht⟩ := scan_exact (by rw [hcredit]; exact h.add) h.total hslots slice 0 rfl (Nat.zero_le _) _
    (scanned_start (s.getOrInit slice) (roundOf slice))
  obtain ⟨hbest, -⟩ := ht.best hpos
  rw [hcredit] at hbest
  have hj : t.bestIndex < slice.length := List.mem_range.1 (List.argmax_mem hbest)
  have hjt : t.bestIndex < t.credits.length := by rw [ht.length]; omega
  have hgrow : ∀ i, slot t.credits i = (roundOf slice).grow s.credit i := fun i => by
    rw [ht.slots i, hcredit]
    exact if_congr mem_roundOf.symm rfl rfl
  have hv : (t.credits[t.bestIndex]).toInt = (roundOf slice).grow s.credit t.bestIndex := by
    rw [← hgrow]
    simp [slot, hjt]
  have hpay : (t.credits[t.bestIndex] - t.totalWeight).toInt =
      (roundOf slice).pay s.credit t.bestIndex t.bestIndex := by
    have htotal : t.totalWeight.toInt = (roundOf slice).total := ht.total
    have hsub := h.sub t.bestIndex hbest
    rw [pay_self, ← hv] at hsub ⊢
    have hup := (t.credits[t.bestIndex]).toInt_lt
    rw [toInt_sub_of_range] <;> rw [htotal] <;> omega
  have hstep : step s.credit (roundOf slice) = (some t.bestIndex, (roundOf slice).pay s.credit t.bestIndex) := by
    unfold step
    rw [show (roundOf slice).winner s.credit = some t.bestIndex from hbest]
  have hsel : s.select slice =
      (.ok (some t.bestIndex), ⟨some (t.credits.set t.bestIndex (t.credits[t.bestIndex] - t.totalWeight))⟩) := by
    unfold WeightedRoundRobin.select
    rw [if_neg (by simpa using hne), hscan]
    simp only [List.getElem?_eq_getElem hjt]
  rw [hsel, hstep]
  refine ⟨rfl, funext fun i => ?_⟩
  show slot (t.credits.set t.bestIndex (t.credits[t.bestIndex] - t.totalWeight)) i = _
  rw [slot_set hjt, hpay]
  by_cases hi : i = t.bestIndex
  · rw [if_pos hi, hi]
  · rw [if_neg hi]
    exact (hgrow i).trans (pay_ne hi _ _).symm

/-! ## Runs -/

/-- After a first call on a non-empty slice there are as many slots as that slice has positions. -/
theorem run_length {first : List Backend} (hne : first ≠ []) (rest : List (List Backend)) :
    ∃ credits, (run WeightedRoundRobin.select .new (first :: rest)).2.credits = some credits ∧
      credits.length = first.length :=
  inv_run (fun s : WeightedRoundRobin => ∃ credits, s.credits = some credits ∧ credits.length = first.length)
    (fun _ slice hs _ => by
      obtain ⟨credits, hcredits, hlen⟩ := hs
      obtain ⟨credits', h, hlen'⟩ := WeightedRoundRobin.select_length hcredits slice
      exact ⟨credits', h, hlen'.trans hlen⟩)
    rest _ (WeightedRoundRobin.select_new_length hne) (along_of_forall rest _ fun _ _ => trivial)

/-- A run without overflow on slices that have their slots is the run of their rounds. -/
theorem run_exact (s : WeightedRoundRobin) (slices : List (List Backend))
    (hfits : Fits (s.credits.map List.length) slices) (hno : Along WeightedRoundRobin.select NoOverflow s slices) :
    (run WeightedRoundRobin.select s slices).1 = (run step s.credit (slices.map roundOf)).1.map .ok ∧
      (run WeightedRoundRobin.select s slices).2.credit = (run step s.credit (slices.map roundOf)).2 := by
  induction slices generalizing s with
  | nil => exact ⟨rfl, rfl⟩
  | cons slice slices ih =>
    obtain ⟨hslice, hno⟩ := hno
    have hslots : slice.length ≤ (s.getOrInit slice).length := by
      rw [WeightedRoundRobin.getOrInit_length]
      exact fits_length hfits
    obtain ⟨hwin, hcredit⟩ := select_exact s hslots hslice
    have hrest := ih _ (WeightedRoundRobin.fits_select hfits) hno
    rw [hcredit] at hrest
    rw [List.map_cons, run_cons, run_cons, List.map_cons, hwin, hrest.1]
    exact ⟨rfl, hrest.2⟩

/-- In the outputs of a run without overflow an index counts as often as its position won. -/
theorem count_ok (os : List (Option ℕ)) (o : Option ℕ) :
    (os.map (.ok : Option ℕ → Except Panic (Option ℕ))).count (.ok o) = os.count o :=
  List.count_map_of_injective _ _ (fun _ _ => Except.ok.inj) _

end Gungho.Lb
