/-
Concurrent calls of the weighted `select` on one slice. Whatever another call does between two
operations of a call, each call changes every credit by its own share: the weight once its loop has
passed the position, and less the total weight once it has returned the index. So the credits are the
sums of the calls' shares, modulo 2 ^ 64 as `i64` wraps, and as integers while the shares fit.
-/
import Gungho.Lb.Call
import Gungho.Lb.Exact
import Gungho.Lib.Threads
import Mathlib.Algebra.BigOperators.ModEq

namespace Gungho.Lb

open Gungho.Lib Gungho.Lib.Credit Gungho.Net Gungho.Pool

/-! ## The machine -/

/-- Any number of calls on `slice`, one atomic step of one of them at a time. -/
def selecting (slice : List Backend) (s : Threads WeightedRoundRobin Call) :
    Sched Empty (Option SocketAddr × RandomRange) Unit → Unit × Threads WeightedRoundRobin Call :=
  interleave (fun _ e => e.elim) (fun r => .enter slice r.1 r.2) (fun s c _ => c.nextWeighted s) s

namespace Call

/-- The index the call has returned. -/
def index : Call → Option ℕ
  | .done (.ok index) => index
  | _ => none

/-- The number of `fetch_add`s a call has done that has not returned. -/
def adds : Call → ℕ
  | .add i _ _ => i
  | .load i _ _ => i + 1
  | .reload i _ _ => i + 1
  | _ => 0

/-- The weight an unfinished call has added so far. -/
def added (slice : List Backend) (c : Call) : ℕ := ∑ i ∈ Finset.range c.adds, (roundOf slice).weight i

/-- What the call has changed of the credit of position `i`. -/
def share (slice : List Backend) (i : ℕ) (c : Call) : ℤ :=
  match c.index with
  | some k => (roundOf slice).weight i - if k = i then (totalWeight slice : ℤ) else 0
  | none => if i < c.adds then (roundOf slice).weight i else 0

end Call

/-! ## What a call knows -/

/-- A call in its loop that has passed the first `m` positions. -/
structure InLoop (s : WeightedRoundRobin) (slice : List Backend) (m : ℕ) (rest : List Backend) (l : Locals) :
    Prop where
  vec : s.vec.length = slice.length
  rest : rest = slice.drop m
  le : m ≤ slice.length
  total : l.totalWeight = Int64.ofInt (∑ i ∈ Finset.range m, (roundOf slice).weight i : ℕ)
  best : l.bestIndex < slice.length

def CallInv (slice : List Backend) (s : WeightedRoundRobin) : Call → Prop
  | .enter backends _ _ => backends = slice
  | .scan _ _ => False
  | .add i rest l => InLoop s slice i rest l
  | .load i rest l => i < slice.length ∧ InLoop s slice (i + 1) rest l
  | .reload i rest l => i < slice.length ∧ InLoop s slice (i + 1) rest l
  | .done result => ∃ k < slice.length, result = .ok (some k)

/-- The vector is missing or has a slot for each position. -/
def VecInv (slice : List Backend) (s : WeightedRoundRobin) : Prop := s.credits = none ∨ s.vec.length = slice.length

section

variable {slice : List Backend} {s : WeightedRoundRobin}

theorem totalWeight_eq_sum (slice : List Backend) :
    totalWeight slice = ∑ i ∈ Finset.range slice.length, (roundOf slice).weight i := by
  rw [← roundOf_total, total_eq_sum (nodup_roundOf slice)]
  refine Finset.sum_congr ?_ fun _ _ => rfl
  ext i
  rw [List.mem_toFinset, mem_roundOf, Finset.mem_range]

theorem vecInv_getOrInit (h : VecInv slice s) : (s.getOrInit slice).length = slice.length := by
  rcases hs : s.credits with _ | credits
  · rw [WeightedRoundRobin.getOrInit, hs]
    exact List.length_replicate
  · rcases h with h | h
    · rw [hs] at h; cases h
    · rw [WeightedRoundRobin.vec, hs] at h
      rw [WeightedRoundRobin.getOrInit, hs]
      exact h

theorem getOrInit_getD (s : WeightedRoundRobin) (slice : List Backend) (j : ℕ) :
    (s.getOrInit slice)[j]?.getD 0 = s.vec[j]?.getD 0 := by
  rcases s with ⟨_ | credits⟩
  · simp only [WeightedRoundRobin.getOrInit, WeightedRoundRobin.vec, Option.getD_none, List.getElem?_replicate]
    split <;> rfl
  · rfl

/-- `fetch_add` and `fetch_sub` change the one slot. -/
theorem getD_set {credits : List Int64} {i : ℕ} {credit : Int64} (h : credits[i]? = some credit) (v : Int64) (j : ℕ) :
    (credits.set i (credit + v))[j]?.getD 0 = credits[j]?.getD 0 + if j = i then v else 0 := by
  have hi : i < credits.length := (List.getElem?_eq_some_iff.1 h).1
  rw [List.getElem?_set]
  by_cases hj : i = j
  · subst hj
    rw [if_pos rfl, if_pos hi, if_pos rfl, h]
    rfl
  · simp [hj, Ne.symm hj]

/-- What a step of a call does: the vector stays, the call knows what it needs for its next step, and
every credit changes by what the call's share changes. -/
structure StepSpec (slice : List Backend) (s : WeightedRoundRobin) (c : Call) (s' : WeightedRoundRobin) (c' : Call) :
    Prop where
  vec : VecInv slice s'
  keep : s.vec.length = slice.length → s'.vec.length = slice.length
  call : CallInv slice s' c'
  credits : ∀ j, s'.vec[j]?.getD 0 = s.vec[j]?.getD 0 + Int64.ofInt (c'.share slice j - c.share slice j)

theorem stepSpec_refl (h : VecInv slice s) {c c' : Call} (hc : CallInv slice s c')
    (hshare : ∀ j, c'.share slice j = c.share slice j) : StepSpec slice s c s c' := by
  refine ⟨h, id, hc, fun j => ?_⟩
  rw [hshare, sub_self]
  exact (Int64.add_zero _).symm

theorem stepSpec_enter (hI : VecInv slice s) (hne : slice ≠ []) (clientAddr : Option SocketAddr) (rng : RandomRange) :
    StepSpec slice s (.enter slice clientAddr rng) ⟨some (s.getOrInit slice)⟩ (.add 0 slice .start) := by
  have hlen := vecInv_getOrInit hI
  refine ⟨.inr hlen, fun _ => hlen, ⟨hlen, rfl, Nat.zero_le _, rfl, List.length_pos_iff.2 hne⟩, fun j => ?_⟩
  have hshare : (Call.add 0 slice .start).share slice j - (Call.enter slice clientAddr rng).share slice j = 0 := by
    simp [Call.share, Call.index, Call.adds]
  rw [hshare]
  exact (getOrInit_getD s slice j).trans (Int64.add_zero _).symm

/-- The `fetch_add` of position `i`. -/
theorem stepSpec_add {i : ℕ} {b : Backend} {rest : List Backend} {l : Locals}
    (h : InLoop s slice i (b :: rest) l) {credit : Int64} (hc : s.vec[i]? = some credit) :
    StepSpec slice s (.add i (b :: rest) l) ⟨some (s.vec.set i (credit + WeightedRoundRobin.weight b))⟩
      (.load i rest { l with totalWeight := l.totalWeight + WeightedRoundRobin.weight b }) := by
  have hi : i < slice.length := by rw [← h.vec]; exact (List.getElem?_eq_some_iff.1 hc).1
  obtain ⟨hb, hrest⟩ := drop_cons h.rest.symm
  have hw : (roundOf slice).weight i = b.weight.toNat := roundOf_weight hb
  have hweight : WeightedRoundRobin.weight b = Int64.ofInt ((roundOf slice).weight i : ℕ) := by
    rw [hw]
    exact Int64.ofInt_eq_ofNat.symm
  have hlen : (s.vec.set i (credit + WeightedRoundRobin.weight b)).length = slice.length := List.length_set.trans h.vec
  refine ⟨.inr hlen, fun _ => hlen, ⟨hi, hlen, hrest.symm, hi, ?_, h.best⟩, fun j => ?_⟩
  · rw [Finset.sum_range_succ, Nat.cast_add, Int64.ofInt_add, ← h.total, ← hweight]
  · have hshare :
        (Call.load i rest { l with totalWeight := l.totalWeight + WeightedRoundRobin.weight b }).share slice j -
        (Call.add i (b :: rest) l).share slice j = if j = i then ((roundOf slice).weight i : ℤ) else 0 := by
      show (if j < i + 1 then ((roundOf slice).weight j : ℤ) else 0) - (if j < i then _ else 0) = _
      rcases lt_trichotomy j i with hj | rfl | hj
      · rw [if_pos (hj.trans (Nat.lt_succ_self i)), if_pos hj, if_neg hj.ne, sub_self]
      · rw [if_pos (Nat.lt_succ_self j), if_neg (lt_irrefl j), if_pos rfl, sub_zero]
      · rw [if_neg (by omega), if_neg (by omega), if_neg hj.ne', sub_self]
    show (s.vec.set i (credit + WeightedRoundRobin.weight b))[j]?.getD 0 = _
    rw [getD_set hc, hshare]
    split
    · rw [hweight]
    · rfl

/-- The final `fetch_sub`. -/
theorem stepSpec_sub {i : ℕ} {l : Locals} (h : InLoop s slice i [] l) {credit : Int64}
    (hc : s.vec[l.bestIndex]? = some credit) :
    StepSpec slice s (.add i [] l) ⟨some (s.vec.set l.bestIndex (credit - l.totalWeight))⟩
      (.done (.ok (some l.bestIndex))) := by
  have hi : i = slice.length := le_antisymm h.le (List.drop_eq_nil_iff.1 h.rest.symm)
  have hlen : (s.vec.set l.bestIndex (credit - l.totalWeight)).length = slice.length := List.length_set.trans h.vec
  refine ⟨.inr hlen, fun _ => hlen, ⟨_, h.best, rfl⟩, fun j => ?_⟩
  have htotal : l.totalWeight = Int64.ofInt (totalWeight slice) := by
    rw [h.total, hi, totalWeight_eq_sum]
  have hshare : (Call.done (.ok (some l.bestIndex))).share slice j - (Call.add i [] l).share slice j =
      if j = l.bestIndex then -(totalWeight slice : ℤ) else 0 := by
    simp only [Call.share, Call.index, Call.adds, hi]
    by_cases hj : j < slice.length
    · by_cases hb : j = l.bestIndex
      · subst hb; simp [hj]
      · simp [hj, hb, Ne.symm hb]
    · have hb : j ≠ l.bestIndex := fun e => hj (e ▸ h.best)
      have hw : (roundOf slice).weight j = 0 := by simp [roundOf, not_lt.1 hj]
      simp [hj, hb, Ne.symm hb, hw]
  show (s.vec.set l.bestIndex (credit - l.totalWeight))[j]?.getD 0 = _
  rw [Int64.sub_eq_add_neg, getD_set hc, hshare, htotal, ← Int64.ofInt_neg]
  split <;> rfl

/-- Every step of a call on `slice`. -/
theorem stepSpec_next (hI : VecInv slice s) (hne : slice ≠ []) {c : Call} (hc : CallInv slice s c) :
    StepSpec slice s c (c.nextWeighted s).1 (c.nextWeighted s).2 := by
  have hslot : ∀ {k : ℕ}, s.vec.length = slice.length → k < slice.length → ∃ credit, s.vec[k]? = some credit :=
    fun hlen hk => ⟨_, List.getElem?_eq_getElem (hlen ▸ hk)⟩
  cases c with
  | enter backends clientAddr rng =>
    obtain rfl : backends = slice := hc
    simp only [Call.nextWeighted, List.isEmpty_iff, if_neg hne]
    exact stepSpec_enter hI hne clientAddr rng
  | scan rest least => exact hc.elim
  | add i rest l =>
    cases rest with
    | nil =>
      obtain ⟨credit, hcredit⟩ := hslot hc.vec hc.best
      simp only [Call.nextWeighted, hcredit]
      exact stepSpec_sub hc hcredit
    | cons b rest =>
      have hi : i < slice.length := lt_of_not_ge fun hle =>
        List.cons_ne_nil b rest (hc.rest.trans (List.drop_eq_nil_iff.2 hle))
      obtain ⟨credit, hcredit⟩ := hslot hc.vec hi
      simp only [Call.nextWeighted, hcredit]
      exact stepSpec_add hc hcredit
  | load i rest l =>
    -- the loads change no credit: whatever they see, only the local variables differ
    simp only [Call.nextWeighted]
    split
    · exact stepSpec_refl hI hc fun _ => rfl
    · exact stepSpec_refl hI hc.2 fun _ => rfl
  | reload i rest l =>
    exact stepSpec_refl hI ⟨hc.2.vec, hc.2.rest, hc.2.le, hc.2.total, hc.1⟩ fun _ => rfl
  | done result => exact stepSpec_refl hI hc fun _ => rfl

/-- What a call knows stays true while the vector has its slots. -/
theorem callInv_mono {s' : WeightedRoundRobin} (hkeep : s.vec.length = slice.length → s'.vec.length = slice.length)
    {c : Call} (h : CallInv slice s c) : CallInv slice s' c := by
  have hloop : ∀ {m rest l}, InLoop s slice m rest l → InLoop s' slice m rest l := fun h =>
    ⟨hkeep h.vec, h.rest, h.le, h.total, h.best⟩
  cases c with
  | enter backends clientAddr rng => exact h
  | scan rest least => exact h
  | add i rest l => exact hloop h
  | load i rest l => exact ⟨h.1, hloop h.2⟩
  | reload i rest l => exact ⟨h.1, hloop h.2⟩
  | done result => exact h

/-- The credit of position `j` is the sum of the calls' shares of it, as an `i64`. -/
def Credited (j : ℕ) (s : WeightedRoundRobin) (x : ℤ) : Prop := s.vec[j]?.getD 0 = Int64.ofInt x

end

theorem modular_selecting {slice : List Backend} (hne : slice ≠ []) :
    Modular (fun (_ : WeightedRoundRobin) (e : Empty) => e.elim)
      (fun r : Option SocketAddr × RandomRange => Call.enter slice r.1 r.2) (fun s c (_ : Unit) => c.nextWeighted s)
      (VecInv slice) (CallInv slice) fun _ _ _ => True where
  env _ e _ := e.elim
  spawn _ _ _ := rfl
  self _ _ _ hI hL _ := ⟨(stepSpec_next hI hne hL).vec, (stepSpec_next hI hne hL).call⟩
  other _ _ _ _ hI hL hu _ := callInv_mono (stepSpec_next hI hne hL).keep hu

theorem accounted_selecting {slice : List Backend} (hne : slice ≠ []) (j : ℕ) :
    Accounted (fun (_ : WeightedRoundRobin) (e : Empty) => e.elim)
      (fun r : Option SocketAddr × RandomRange => Call.enter slice r.1 r.2) (fun s c (_ : Unit) => c.nextWeighted s)
      (VecInv slice) (CallInv slice) (fun _ _ _ => True) (Credited j) (Call.share slice j) where
  env _ e _ _ := e.elim
  spawn _ := rfl
  next s c _ x hI hL _ hx := by
    have hstep := (stepSpec_next hI hne hL).credits j
    have hsum : (c.nextWeighted s).2.share slice j + x =
        c.share slice j + x + ((c.nextWeighted s).2.share slice j - c.share slice j) := by ring
    unfold Credited at hx ⊢
    rw [hstep, hx, ← Int64.ofInt_add, hsum]

/-! ## Sums of shares -/

/-- The credit of position `i` as the calls' shares have it, before any wrapping. -/
def unwrapped (slice : List Backend) (calls : List Call) (i : ℕ) : ℤ := (calls.map (Call.share slice i)).sum

section

variable {slice : List Backend} {s : WeightedRoundRobin}

theorem index_of_done {c : Call} (h : CallInv slice s c) {r : Except Panic (Option Nat)} (hr : c.result = some r) :
    ∃ k < slice.length, r = .ok (some k) ∧ c.index = some k := by
  cases c with
  | done result =>
    obtain ⟨k, hk, rfl⟩ := h
    cases hr
    exact ⟨k, hk, rfl, rfl⟩
  | enter backends clientAddr rng => cases hr
  | scan rest least => cases hr
  | add i rest l => cases hr
  | load i rest l => cases hr
  | reload i rest l => cases hr

/-- A call that has no index yet has passed some of the positions; one that has an index has them all. -/
theorem index_cases {c : Call} (h : CallInv slice s c) :
    (c.index = none ∧ c.adds ≤ slice.length) ∨ ∃ k < slice.length, c.index = some k ∧ c.adds = 0 := by
  cases c with
  | done result =>
    obtain ⟨k, hk, rfl⟩ := h
    exact .inr ⟨k, hk, rfl, rfl⟩
  | enter backends clientAddr rng => exact .inl ⟨rfl, Nat.zero_le _⟩
  | scan rest least => exact h.elim
  | add i rest l => exact .inl ⟨rfl, h.le⟩
  | load i rest l => exact .inl ⟨rfl, h.2.le⟩
  | reload i rest l => exact .inl ⟨rfl, h.2.le⟩

/-- Over all positions the shares of a call sum to what it has added, and to nothing once it is done. -/
theorem sum_share {c : Call} (h : CallInv slice s c) :
    ∑ i ∈ Finset.range slice.length, c.share slice i = c.added slice := by
  rcases index_cases h with ⟨hindex, hadds⟩ | ⟨k, hk, hindex, hadds⟩
  · have hsub : Finset.range c.adds ⊆ Finset.range slice.length := Finset.range_subset_range.2 hadds
    simp only [Call.share, hindex, Call.added, Nat.cast_sum]
    rw [← Finset.sum_subset hsub fun i _ hi => if_neg (by simpa using hi)]
    exact Finset.sum_congr rfl fun i hi => if_pos (Finset.mem_range.1 hi)
  · simp only [Call.share, hindex, Call.added, hadds, Finset.range_zero, Finset.sum_empty, Nat.cast_zero]
    rw [Finset.sum_sub_distrib, Finset.sum_ite_eq, if_pos (Finset.mem_range.2 hk), totalWeight_eq_sum, Nat.cast_sum,
      sub_self]

theorem sum_unwrapped {calls : List Call} (h : ∀ c ∈ calls, CallInv slice s c) :
    ∑ i ∈ Finset.range slice.length, unwrapped slice calls i = (calls.map (Call.added slice)).sum := by
  induction calls with
  | nil => simp [unwrapped]
  | cons c calls ih =>
    rw [List.forall_mem_cons] at h
    have hcons : ∀ i, unwrapped slice (c :: calls) i = c.share slice i + unwrapped slice calls i := fun _ => by
      simp [unwrapped]
    simp only [hcons, Finset.sum_add_distrib, sum_share h.1, ih h.2, List.map_cons, List.sum_cons, Nat.cast_add]

/-- Once all calls are done, credit `i` has gained its weight in each and paid for those that returned `i`. -/
theorem unwrapped_done {calls : List Call} (h : ∀ c ∈ calls, CallInv slice s c)
    (hdone : ∀ c ∈ calls, c.result.isSome) (i : ℕ) :
    unwrapped slice calls i =
      calls.length * (roundOf slice).weight i - totalWeight slice * (calls.countP (·.index = some i) : ℕ) := by
  induction calls with
  | nil => simp [unwrapped]
  | cons c calls ih =>
    rw [List.forall_mem_cons] at h hdone
    obtain ⟨r, hr⟩ := Option.isSome_iff_exists.1 hdone.1
    obtain ⟨k, -, -, hindex⟩ := index_of_done h.1 hr
    have hcons : unwrapped slice (c :: calls) i = c.share slice i + unwrapped slice calls i := by simp [unwrapped]
    rw [hcons, ih h.2 hdone.2, List.countP_cons, List.length_cons]
    simp only [Call.share, hindex, Option.some.injEq, decide_eq_true_eq]
    split <;> push_cast <;> ring

/-- A share is at most the total weight. -/
theorem abs_share_le (c : Call) {i : ℕ} (hi : i < slice.length) :
    -(totalWeight slice : ℤ) ≤ c.share slice i ∧ c.share slice i ≤ totalWeight slice := by
  have hle : (roundOf slice).weight i ≤ totalWeight slice := by
    rw [← roundOf_total]
    exact weight_le_total (nodup_roundOf slice) (mem_roundOf.2 hi)
  unfold Call.share
  split <;> split <;> constructor <;> omega

theorem abs_unwrapped_le (calls : List Call) {i : ℕ} (hi : i < slice.length) :
    -(calls.length * totalWeight slice : ℤ) ≤ unwrapped slice calls i ∧
      unwrapped slice calls i ≤ calls.length * totalWeight slice := by
  induction calls with
  | nil => simp [unwrapped]
  | cons c calls ih =>
    obtain ⟨hlow, hup⟩ := ih
    obtain ⟨hlow', hup'⟩ := abs_share_le c hi
    have hcons : unwrapped slice (c :: calls) i = c.share slice i + unwrapped slice calls i := by simp [unwrapped]
    rw [hcons, List.length_cons, Nat.cast_succ, add_one_mul]
    constructor <;> linarith

end

/-! ## The result -/

/-- No credit has left the range of an `i64`. -/
def InRange (slice : List Backend) (calls : List Call) : Prop :=
  ∀ i < slice.length, -2 ^ 63 ≤ unwrapped slice calls i ∧ unwrapped slice calls i < 2 ^ 63

/-- No update is lost or applied twice: the credits sum to what the unfinished calls have added, and
when no call is in progress each has gained its weight in every call and paid for the calls that
returned it. Credits are `i64`s, so this is modulo 2 ^ 64, and exact while none has left its range,
as is sure while the calls' total weights together are in range. Every call that is done has returned
an index of the slice. -/
structure Conserved (slice : List Backend) (s : Threads WeightedRoundRobin Call) : Prop where
  sum : ∑ i ∈ Finset.range slice.length, s.shared.credit i ≡ (s.threads.map (Call.added slice)).sum [ZMOD 2 ^ 64]
  credits : (∀ c ∈ s.threads, c.result.isSome) → ∀ i < slice.length,
    s.shared.credit i ≡ s.threads.length * (roundOf slice).weight i -
      totalWeight slice * (s.threads.countP (·.index = some i) : ℕ) [ZMOD 2 ^ 64]
  exactSum : InRange slice s.threads →
    ∑ i ∈ Finset.range slice.length, s.shared.credit i = (s.threads.map (Call.added slice)).sum
  exactCredits : InRange slice s.threads → (∀ c ∈ s.threads, c.result.isSome) →
    ∀ i < slice.length, s.shared.credit i = s.threads.length * (roundOf slice).weight i -
      totalWeight slice * (s.threads.countP (·.index = some i) : ℕ)
  inRange : s.threads.length * totalWeight slice < 2 ^ 63 → InRange slice s.threads
  index : ∀ c ∈ s.threads, ∀ result, c.result = some result → ∃ i < slice.length, result = .ok (some i)

theorem credit_of_credited {j : ℕ} {s : WeightedRoundRobin} {x : ℤ} (h : Credited j s x) :
    s.credit j ≡ x [ZMOD 2 ^ 64] ∧ (-2 ^ 63 ≤ x → x < 2 ^ 63 → s.credit j = x) := by
  have hcredit : s.credit j = (Int64.ofInt x).toInt := congrArg Int64.toInt h
  refine ⟨?_, fun hl hu => hcredit.trans (Int64.toInt_ofInt_of_le hl hu)⟩
  rw [hcredit, Int64.toInt_ofInt]
  exact Int.bmod_emod

theorem conserved_of_credited {slice : List Backend} {s : Threads WeightedRoundRobin Call}
    (hcalls : ∀ c ∈ s.threads, CallInv slice s.shared c)
    (hcredit : ∀ j, Credited j s.shared (unwrapped slice s.threads j)) : Conserved slice s := by
  have hexact : InRange slice s.threads → ∀ i < slice.length, s.shared.credit i = unwrapped slice s.threads i :=
    fun hfit i hi => (credit_of_credited (hcredit i)).2 (hfit i hi).1 (hfit i hi).2
  refine ⟨?_, fun hdone i _ => ?_, fun hfit => ?_, fun hfit hdone i hi => ?_, fun hfit i hi => ?_,
    fun c hc result hr => ?_⟩
  · rw [← sum_unwrapped hcalls]
    exact Int.ModEq.sum fun i _ => (credit_of_credited (hcredit i)).1
  · rw [← unwrapped_done hcalls hdone i]
    exact (credit_of_credited (hcredit i)).1
  · rw [← sum_unwrapped hcalls]
    exact Finset.sum_congr rfl fun i hi => hexact hfit i (Finset.mem_range.1 hi)
  · rw [hexact hfit i hi, unwrapped_done hcalls hdone i]
  · obtain ⟨hl, hu⟩ := abs_unwrapped_le s.threads hi
    have hfit' : (s.threads.length * totalWeight slice : ℤ) < 2 ^ 63 := by exact_mod_cast hfit
    constructor <;> linarith
  · obtain ⟨k, hk, hok, -⟩ := index_of_done (hcalls c hc) hr
    exact ⟨k, hk, hok⟩

/-- In every interleaving of any number of calls on one non-empty slice. -/
theorem credits_conserved {slice : List Backend} (hne : slice ≠ [])
    (choices : List (Sched Empty (Option SocketAddr × RandomRange) Unit)) :
    Conserved slice (run (selecting slice) ⟨.new, []⟩ choices).2 := by
  have hstart : Holds (VecInv slice) (CallInv slice) (⟨.new, []⟩ : Threads WeightedRoundRobin Call) :=
    ⟨.inl rfl, fun c hc => by cases hc⟩
  refine conserved_of_credited ?_ fun j => ?_
  · exact (holds_run (modular_selecting hne) choices hstart (along_free choices _)).2
  · exact balanced_run (modular_selecting hne) (accounted_selecting hne j) hstart rfl choices (along_free choices _)

/-- Two calls on two backends, step by step in turns. Both see the credits of both, and both take the first backend:
its credit has gained twice its weight and paid twice the total. -/
theorem credits_conserved_overlap :
    let slice : List Backend := [⟨0, .v4 ⟨10, 0, 0, 1⟩ 80, 2⟩, ⟨1, .v4 ⟨10, 0, 0, 2⟩ 80, 1⟩]
    let choices : List (Sched Empty (Option SocketAddr × RandomRange) Unit) :=
      [.spawn (none, .lowest), .spawn (none, .lowest)] ++ (List.replicate 8 [.step 0 (), .step 1 ()]).flatten
    let t := (run (selecting slice) ⟨.new, []⟩ choices).2
    t.threads.map Call.index = [some 0, some 0] ∧ t.shared.credit 0 = 2 * 2 - 3 * 2 ∧
      t.shared.credit 1 = 2 * 1 - 3 * 0 := by
  intro slice choices t
  have h : Conserved slice t := credits_conserved (List.cons_ne_nil _ _) choices
  have hfit : InRange slice t.threads := h.inRange (by decide)
  have hdone : ∀ c ∈ t.threads, c.result.isSome := by decide
  have hfirst : t.threads.countP (·.index = some 0) = 2 := by decide
  have hsecond : t.threads.countP (·.index = some 1) = 0 := by decide
  have hcredits := h.exactCredits hfit hdone
  refine ⟨by decide, (hcredits 0 (by decide)).trans ?_, (hcredits 1 (by decide)).trans ?_⟩
  · rw [hfirst]
    decide
  · rw [hsecond]
    decide

end Gungho.Lb
