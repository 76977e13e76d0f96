/-
The credits while backends fail and recover. Every call of the weighted `select` adds the weights of its own list and
takes their total off again, so whatever lists the requests find and however their steps interleave, the credits
together are what the calls in progress have added: nothing is left over from a call that is done.
-/
import Gungho.Lb.Concurrent
import Gungho.Proxy.Panics

namespace Gungho

open Gungho.Lib Gungho.Lb Gungho.Net Gungho.Pool Gungho.Health

/-! ## Sums of `i64`s -/

namespace Lb

/-- The credits together. -/
def WeightedRoundRobin.balance (s : WeightedRoundRobin) : ℤ := (s.vec.map Int64.toInt).sum

theorem toInt_ofInt_modEq (x : ℤ) : (Int64.ofInt x).toInt ≡ x [ZMOD 2 ^ 64] := by
  rw [Int64.toInt_ofInt]
  exact Int.bmod_emod

theorem toInt_add_modEq (a b : Int64) : (a + b).toInt ≡ a.toInt + b.toInt [ZMOD 2 ^ 64] := by
  rw [Int64.toInt_add]
  exact Int.bmod_emod

/-- `fetch_add` and `fetch_sub` change the sum by what they add or take off. -/
theorem sum_set_modEq {credits : List Int64} {i : ℕ} {credit : Int64} (h : credits[i]? = some credit) (x : ℤ) :
    ((credits.set i (credit + Int64.ofInt x)).map Int64.toInt).sum ≡
      (credits.map Int64.toInt).sum + x [ZMOD 2 ^ 64] := by
  obtain ⟨hi, hget⟩ := List.getElem?_eq_some_iff.1 h
  have hlen : i < (credits.map Int64.toInt).length := by rwa [List.length_map]
  have hslot : (credits.map Int64.toInt)[i] = credit.toInt := by rw [List.getElem_map, hget]
  have hnew : (credit + Int64.ofInt x).toInt ≡ credit.toInt + x [ZMOD 2 ^ 64] :=
    (toInt_add_modEq _ _).trans ((toInt_ofInt_modEq x).add_left _)
  rw [List.map_set, List.sum_set', dif_pos hlen, hslot]
  calc (credits.map Int64.toInt).sum + (-credit.toInt + (credit + Int64.ofInt x).toInt)
      ≡ (credits.map Int64.toInt).sum + (-credit.toInt + (credit.toInt + x)) [ZMOD 2 ^ 64] :=
        (hnew.add_left _).add_left _
    _ = (credits.map Int64.toInt).sum + x := by rw [neg_add_cancel_left]

theorem balance_getOrInit (s : WeightedRoundRobin) (backends : List Backend) :
    WeightedRoundRobin.balance ⟨some (s.getOrInit backends)⟩ = s.balance := by
  rcases s with ⟨_ | credits⟩
  · simp [WeightedRoundRobin.balance, WeightedRoundRobin.vec, WeightedRoundRobin.getOrInit]
  · rfl

/-! ## Calls of `select` -/

/-- What a call on the list has yet to visit, and the total it carries: the weights it has added. -/
def Call.Tallied (list : List Backend) (call : Call) : Prop :=
  match call with
  | .add i rest l => rest = list.drop i ∧ l.totalWeight = Int64.ofInt (call.added list)
  | .load i rest l => rest = list.drop (i + 1) ∧ l.totalWeight = Int64.ofInt (call.added list)
  | .reload i rest l => rest = list.drop (i + 1) ∧ l.totalWeight = Int64.ofInt (call.added list)
  | _ => True

section

variable {n : ℕ} {list : List Backend}

/-- The weight at the position of the loop. -/
theorem weight_drop {i : ℕ} {b : Backend} {rest : List Backend} (h : list.drop i = b :: rest) :
    WeightedRoundRobin.weight b = Int64.ofInt ((roundOf list).weight i : ℕ) := by
  rw [roundOf_weight (drop_cons h).1]
  exact Int64.ofInt_eq_ofNat.symm

theorem added_succ (i : ℕ) (rest rest' : List Backend) (l l' : Locals) :
    (Call.load i rest l).added list = (Call.add i rest' l').added list + (roundOf list).weight i :=
  Finset.sum_range_succ _ i

theorem tallied_next (w : ℕ) (mem : Mem) {strategy : Strategy} {call : Call} (hsound : call.Sound n strategy list)
    (h : call.Tallied list) : (call.next w mem strategy).2.Tallied list := by
  cases call with
  | enter backends clientAddr rng =>
    obtain rfl : backends = list := hsound
    cases strategy with
    | weightedRoundRobin s =>
      simp only [Call.next, Call.nextWeighted]
      split
      · exact trivial
      · exact ⟨rfl, rfl⟩
    | leastConnections =>
      simp only [Call.next, Call.nextLeast]
      split <;> exact trivial
    | _ => exact trivial
  | scan rest least =>
    cases strategy with
    | leastConnections => cases rest <;> exact trivial
    | _ => exact trivial
  | add i rest l =>
    obtain ⟨hrest, htotal⟩ := h
    cases strategy with
    | weightedRoundRobin s =>
      cases rest with
      | nil =>
        simp only [Call.next, Call.nextWeighted]
        split <;> exact trivial
      | cons b rest =>
        simp only [Call.next, Call.nextWeighted]
        split
        · exact trivial
        · refine ⟨(drop_cons hrest.symm).2.symm, ?_⟩
          rw [added_succ i rest (b :: rest) _ l, Nat.cast_add, Int64.ofInt_add, ← htotal, weight_drop hrest.symm]
    | _ => exact ⟨hrest, htotal⟩
  | load i rest l =>
    cases strategy with
    | weightedRoundRobin s =>
      simp only [Call.next, Call.nextWeighted]
      split <;> exact h
    | _ => exact h
  | reload i rest l => cases strategy <;> exact h
  | done result => cases strategy <;> exact trivial

/-- Every step of a call changes the credits together by what it changes of the call's tally. -/
theorem balance_next {s : WeightedRoundRobin} {call : Call} (hsound : call.Sound n (.weightedRoundRobin s) list)
    (hlist : list.length ≤ n) (h : call.Tallied list) :
    (call.nextWeighted s).1.balance + call.added list ≡
      s.balance + (call.nextWeighted s).2.added list [ZMOD 2 ^ 64] := by
  cases call with
  | enter backends clientAddr rng =>
    simp only [Call.nextWeighted]
    split
    · exact .rfl
    · rw [balance_getOrInit]
      exact .rfl
  | scan rest least => exact .rfl
  | add i rest l =>
    obtain ⟨hslots, hplace, hbest⟩ := hsound
    obtain ⟨hrest, htotal⟩ := h
    have hvec : n ≤ s.vec.length := hslots s rfl
    cases rest with
    | nil =>
      have hcredit := List.getElem?_eq_getElem (hbest.trans_le (hlist.trans hvec))
      have hset := sum_set_modEq hcredit (-((Call.add i [] l).added list : ℤ))
      rw [Int64.ofInt_neg, ← htotal, ← Int64.sub_eq_add_neg] at hset
      simp only [Call.nextWeighted, hcredit]
      calc _ ≡ s.balance + -((Call.add i [] l).added list : ℤ) + (Call.add i [] l).added list [ZMOD 2 ^ 64] :=
          hset.add_right _
        _ = s.balance + ((Call.done (.ok (some l.bestIndex))).added list : ℕ) := by
          rw [neg_add_cancel_right]
          exact (add_zero _).symm
    | cons b rest =>
      rw [List.length_cons] at hplace
      have hi : i < s.vec.length := by omega
      have hset := sum_set_modEq (List.getElem?_eq_getElem hi) ((roundOf list).weight i : ℕ)
      rw [← weight_drop hrest.symm] at hset
      simp only [Call.nextWeighted, List.getElem?_eq_getElem hi]
      rw [added_succ i rest (b :: rest) _ l, Nat.cast_add, add_comm ((Call.add i (b :: rest) l).added list : ℤ),
        ← add_assoc]
      exact hset.add_right _
  | load i rest l =>
    simp only [Call.nextWeighted]
    split <;> exact .rfl
  | reload i rest l => exact .rfl
  | done result => exact .rfl

end

end Lb

/-! ## Requests -/

namespace Proxy

/-- The weight that the request's call of `select` has added and not yet taken off. -/
def Handling.added : Handling → ℕ
  | .selecting _ healthy call => call.added healthy
  | _ => 0

def Handling.Tallied : Handling → Prop
  | .selecting _ healthy call => call.Tallied healthy
  | _ => True

section

variable {n w : ℕ} {parseUri : Text → Option Uri} {s s' : Proxy} {t t' : Handling} {i : Input}

theorem tallied_chosen (req : Request) (healthy : List Backend) (result : Except Lb.Panic (Option ℕ)) :
    (chosen parseUri req healthy result).Tallied ∧ (chosen parseUri req healthy result).added = 0 := by
  rcases chosen_cases parseUri req healthy result with ⟨message, h⟩ | h | h | ⟨b, -, uri, headers, h⟩ <;> rw [h] <;>
    exact ⟨trivial, rfl⟩

theorem Moved.tallied (hmoved : Moved w parseUri s t i s' t') (hsound : t.Sound n s.strategy) (h : t.Tallied) :
    t'.Tallied := by
  cases hmoved with
  | stay t hi => exact h
  | select req healthy hr elapsed => exact tallied_next w _ hsound.2 h
  | choose req healthy hr elapsed => exact (tallied_chosen req healthy _).1
  | _ => exact trivial

/-- A step changes the credits together by what it changes of the request's tally. -/
theorem Moved.balance (hmoved : Moved w parseUri s t i s' t') (hsound : t.Sound n s.strategy) (h : t.Tallied)
    {c : WeightedRoundRobin} (hc : s.strategy = .weightedRoundRobin c) :
    ∃ c', s'.strategy = .weightedRoundRobin c' ∧ c'.balance + t.added ≡ c.balance + t'.added [ZMOD 2 ^ 64] := by
  cases hmoved with
  | stay t hi => exact ⟨c, hc, .rfl⟩
  | @select req healthy call hr elapsed =>
    have hnext : call.next w s.pool.mem s.strategy =
        (.weightedRoundRobin (call.nextWeighted c).1, (call.nextWeighted c).2) := by
      rw [hc]
      cases call <;> rfl
    obtain ⟨hlist, hcall⟩ := hsound
    rw [hc] at hcall
    rw [hnext]
    exact ⟨_, rfl, balance_next hcall hlist h⟩
  | @choose req healthy call result hr elapsed =>
    refine ⟨c, hc, ?_⟩
    rw [(tallied_chosen req healthy result).2]
    cases call with
    | done result' => exact .rfl
    | _ => cases hr
  | _ => exact ⟨c, hc, .rfl⟩

/-- The credits together are a total, as `i64`s. -/
def Balances (s : Service) (total : ℤ) : Prop :=
  ∃ c, s.proxy.strategy = .weightedRoundRobin c ∧ c.balance ≡ total [ZMOD 2 ^ 64]

theorem modular_tallied (w : ℕ) (parseUri : Text → Option Uri) (config : HealthCheckConfig) (bs : List Backend)
    (algorithm : Algorithm) :
    Modular (Service.check config) (fun r : Request × RandomRange => Handling.start r.1 r.2) (Service.handle w parseUri)
      (fun s => Kept bs algorithm s ∧ Primed bs.length s.proxy.strategy)
      (fun s t => (t.Of algorithm ∧ t.Sound bs.length s.proxy.strategy) ∧ t.Tallied)
      fun s t i => opens bs.length s.proxy.strategy t i = true :=
  (modular_sound w parseUri config bs algorithm).also (fun _ => trivial) fun s t i _ ht _ h =>
    (handleRequest_moved w parseUri s.proxy t i).tallied ht.2 h

theorem accounted_credits (w : ℕ) (parseUri : Text → Option Uri) (config : HealthCheckConfig) (bs : List Backend)
    (algorithm : Algorithm) :
    Accounted (Service.check config) (fun r : Request × RandomRange => Handling.start r.1 r.2)
      (Service.handle w parseUri)
      (fun s => Kept bs algorithm s ∧ Primed bs.length s.proxy.strategy)
      (fun s t => (t.Of algorithm ∧ t.Sound bs.length s.proxy.strategy) ∧ t.Tallied)
      (fun s t i => opens bs.length s.proxy.strategy t i = true) Balances fun t => (t.added : ℤ) where
  env _ _ _ h := h
  spawn _ := rfl
  next s t i x _ ht _ h := by
    obtain ⟨c, hc, hbalance⟩ := h
    obtain ⟨c', hc', hstep⟩ := (handleRequest_moved w parseUri s.proxy t i).balance ht.1.2 ht.2 hc
    refine ⟨c', hc', Int.ModEq.add_right_cancel' (t.added : ℤ) ?_⟩
    calc c'.balance + t.added ≡ c.balance + (s.handle w parseUri t i).2.added [ZMOD 2 ^ 64] := hstep
      _ ≡ t.added + x + (s.handle w parseUri t i).2.added [ZMOD 2 ^ 64] := hbalance.add_right _
      _ = (s.handle w parseUri t i).2.added + x + t.added := by ring

end

/-! ## The result -/

/-- In every interleaving of the checker's atomic steps with the requests' the credits of the weighted strategy sum to
the weights that the calls of `select` in progress have added, whatever lists these calls have, as long as the call that
initialises the credits finds all backends healthy, or none. So nothing is left over where no call is in progress. -/
theorem credits_balance (w : ℕ) (parseUri : Text → Option Uri) (config : HealthCheckConfig) (p : Proxy)
    (hp : p.pool.Synced) (hstrategy : p.strategy = createStrategy .weightedRoundRobin) (metrics : GunghoMetrics)
    (choices : List (Sched TaskInput (Request × RandomRange) Input))
    (hopens : Along (tending w parseUri config)
      (StepCond fun s t i => opens p.pool.backends.length s.proxy.strategy t i = true) ⟨.start p metrics, []⟩ choices) :
    let s := (run (tending w parseUri config) ⟨.start p metrics, []⟩ choices).2
    ∃ c, s.shared.proxy.strategy = .weightedRoundRobin c ∧
      c.balance ≡ (s.threads.map Handling.added).sum [ZMOD 2 ^ 64] ∧
      ((∀ t ∈ s.threads, ∀ req healthy call, t ≠ .selecting req healthy call) → c.balance ≡ 0 [ZMOD 2 ^ 64]) := by
  intro s
  have hstart : Lib.Balanced Balances (fun t : Handling => (t.added : ℤ))
      (⟨Service.start p metrics, []⟩ : Threads Service Handling) := ⟨.new, hstrategy, .rfl⟩
  obtain ⟨c, hc, hbalance⟩ : Lib.Balanced Balances (fun t : Handling => (t.added : ℤ)) s :=
    balanced_run (modular_tallied w parseUri config p.pool.backends p.strategy.algorithm)
      (accounted_credits w parseUri config _ _) ⟨sound_start hp hstrategy metrics, by simp⟩ hstart choices hopens
  have hsum : ((s.threads.map Handling.added).sum : ℤ) = (s.threads.map fun t => (t.added : ℤ)).sum := by
    rw [Nat.cast_list_sum, List.map_map]
    rfl
  refine ⟨c, hc, hsum ▸ hbalance, fun hidle => ?_⟩
  have hzero : (s.threads.map fun t => (t.added : ℤ)).sum = 0 := by
    refine List.sum_eq_zero fun x hx => ?_
    obtain ⟨t, ht, rfl⟩ := List.mem_map.1 hx
    cases t with
    | selecting req healthy call => exact absurd rfl (hidle _ ht req healthy call)
    | _ => rfl
  rw [hzero] at hbalance
  exact hbalance

/-- A weighted proxy whose first backend fails and comes back. The second request is on the list of the one healthy
backend and has added its weight of 1, the third is on the full list and has added the first backend's 1. -/
theorem credits_balance_overlapping :
    let config : HealthCheckConfig := { unhealthyThreshold := 1, healthyThreshold := 1 }
    let p : Proxy := ⟨.pair, createStrategy .weightedRoundRobin, .new⟩
    let req : Request × RandomRange := (⟨.v4 ⟨192, 168, 1, 1⟩ 1234, none, ⟨[]⟩⟩, .lowest)
    let choices : List (Sched TaskInput (Request × RandomRange) Input) :=
      [[.spawn req], List.replicate 10 (.step 0 (.go 0)), [.outside (.joined 0 .unhealthy)],
        List.replicate 7 (.outside .step), .spawn req :: List.replicate 3 (.step 1 (.go 0)),
        [.outside (.joined 0 .healthy)], List.replicate 8 (.outside .step),
        .spawn req :: List.replicate 3 (.step 2 (.go 0))].flatten
    ∃ c, (run (tending 64 Uri.accept config) ⟨.start p .new, []⟩ choices).2.shared.proxy.strategy =
      .weightedRoundRobin c ∧ c.balance ≡ 2 [ZMOD 2 ^ 64] := by
  intro config p req choices
  obtain ⟨c, hc, hbalance, -⟩ := credits_balance 64 Uri.accept config p (BackendPool.new_synced ..) rfl .new choices
    (by decide)
  have hsum : ((run (tending 64 Uri.accept config) ⟨.start p .new, []⟩ choices).2.threads.map Handling.added).sum = 2 :=
    by decide
  rw [hsum] at hbalance
  exact ⟨c, hc, hbalance⟩

end Proxy

end Gungho
