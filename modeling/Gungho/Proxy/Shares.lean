/-
The backends' shares of requests that come one after the other. While the healthy list stays as it is, the requests
that reach a backend make the calls of the weighted strategy on that list in a row; so of as many requests in a row
as the weights add up to, each backend answers as many as its weight says.
-/
import Gungho.Lb.Proportion
import Gungho.Proxy.Sequential

namespace Gungho.Proxy

open Gungho.Lib Gungho.Lib.Credit Gungho.Lb Gungho.Net Gungho.Pool

/-- The backend that answered, or failed to. -/
def Exit.backend : Exit → Option Backend
  | .returned backend _ => backend
  | _ => none

/-- The backend that an answer of `select` stands for. -/
def pointed (list : List Backend) : Except Lb.Panic (Option ℕ) → Option Backend
  | .ok (some index) => list[index]?
  | _ => none

section

variable {w : ℕ} {parseUri : Text → Option Uri} {list : List Backend} {s s' s'' : Proxy}

theorem arm_frame (outcome : Outcome) (s : Proxy) (backend : Backend) (elapsed : ℕ) :
    (outcome.arm s backend elapsed).2.pool = s.pool ∧ (outcome.arm s backend elapsed).2.strategy = s.strategy ∧
      ∀ b, (outcome.arm s backend elapsed).1.backend = some b → b = backend := by
  cases outcome <;> refine ⟨rfl, rfl, fun b hb => ?_⟩ <;> cases hb <;> rfl

/-- A request makes one call of `select` on the list, and the backend that answers it is the one chosen. -/
theorem handleWhole_spec (w : ℕ) (parseUri : Text → Option Uri) (s : Proxy) (req : Request) (rng : RandomRange)
    (outcome : Outcome) (elapsed : ℕ) :
    let r := handleWhole w parseUri s req rng outcome elapsed
    let selected := s.strategy.select w s.pool.mem rng s.pool.healthyBackends (some req.clientAddr)
    r.2.pool.healthyBackends = s.pool.healthyBackends ∧ r.2.strategy = selected.2 ∧
      ∀ b, r.1.backend = some b → pointed s.pool.healthyBackends selected.1 = some b := by
  simp only [handleWhole]
  generalize s.strategy.select w s.pool.mem rng s.pool.healthyBackends (some req.clientAddr) = selected
  obtain ⟨panic | _ | index, strategy⟩ := selected
  · exact ⟨rfl, rfl, fun b hb => by cases hb⟩
  · exact ⟨rfl, rfl, fun b hb => by cases hb⟩
  · simp only [pointed]
    rcases s.pool.healthyBackends[index]? with _ | backend
    · exact ⟨rfl, rfl, fun b hb => by cases hb⟩
    · dsimp only
      split
      · exact ⟨rfl, rfl, fun b hb => by cases hb⟩
      · rcases rewriteRequest req.headers req.clientAddr backend.addr with e | headers
        · exact ⟨rfl, rfl, fun b hb => by cases hb⟩
        · obtain ⟨hpool, hstrategy, hbackend⟩ := arm_frame outcome
            (Proxy.setMem ⟨s.pool, strategy, s.metrics⟩ (backend.incrementConnections w s.pool.mem)) backend elapsed
          refine ⟨?_, hstrategy, fun b hb => by rw [hbackend b hb]⟩
          show (Outcome.arm _ backend elapsed outcome).2.pool.healthyCache = s.pool.healthyCache
          rw [hpool]
          rfl

/-- The proxy balances by weights, with the credits of `t` and on the list. -/
structure Weighing (list : List Backend) (t : WeightedRoundRobin) (s : Proxy) : Prop where
  strategy : s.strategy = .weightedRoundRobin t
  list : s.pool.healthyBackends = list

variable {t : WeightedRoundRobin} {rs : List (Request × RandomRange)} {exits : List Exit}

theorem weighing_step {r : Request × RandomRange} {exit : Exit} (hs : Weighing list t s)
    (h : Handled w parseUri s r exit s') :
    exit.backend = none ∧ Weighing list t s' ∨
      Weighing list (t.select list).2 s' ∧ ∀ b, exit.backend = some b → pointed list (t.select list).1 = some b := by
  obtain ⟨hstrategy, rfl⟩ := hs
  rcases h with ⟨rfl, rfl⟩ | ⟨outcome, elapsed, h⟩
  · exact .inl ⟨rfl, hstrategy, rfl⟩
  · obtain ⟨hlist, hnext, hbackend⟩ := handleWhole_spec w parseUri s r.1 r.2 outcome elapsed
    rw [h, hstrategy] at hnext hbackend
    rw [h] at hlist
    exact .inr ⟨⟨hnext, hlist⟩, hbackend⟩

/-- Requests one after the other make some number of calls in a row. -/
theorem weighing_run (h : HandledInTurn w parseUri s rs exits s') {t : WeightedRoundRobin} (hs : Weighing list t s) :
    ∃ n, Weighing list (run WeightedRoundRobin.select t (List.replicate n list)).2 s' := by
  induction h generalizing t with
  | nil s => exact ⟨0, hs⟩
  | cons h _ ih =>
    rcases weighing_step hs h with ⟨-, hs'⟩ | ⟨hs', -⟩
    · exact ih hs'
    · obtain ⟨n, hn⟩ := ih hs'
      exact ⟨n + 1, hn⟩

/-- Where each reaches a backend they make a call each, and the backends are those chosen. -/
theorem served_run (h : HandledInTurn w parseUri s rs exits s') {t : WeightedRoundRobin} (hs : Weighing list t s)
    (hserved : ∀ exit ∈ exits, exit.backend ≠ none) :
    exits.map Exit.backend =
      (run WeightedRoundRobin.select t (List.replicate exits.length list)).1.map (pointed list) := by
  induction h generalizing t with
  | nil s => rfl
  | @cons s s' s'' r exit rs exits h _ ih =>
    rcases weighing_step hs h with ⟨hnone, -⟩ | ⟨hs', hbackend⟩
    · exact absurd hnone (hserved exit List.mem_cons_self)
    · obtain ⟨b, hb⟩ := Option.ne_none_iff_exists'.1 (hserved exit List.mem_cons_self)
      have hrest := ih hs' fun exit he => hserved exit (List.mem_cons_of_mem _ he)
      rw [List.map_cons, hrest, hb, ← hbackend b hb]
      rfl

theorem handledInTurn_append {pre post : List Exit} (h : HandledInTurn w parseUri s rs (pre ++ post) s'') :
    ∃ rs₁ rs₂ s', rs = rs₁ ++ rs₂ ∧ HandledInTurn w parseUri s rs₁ pre s' ∧
      HandledInTurn w parseUri s' rs₂ post s'' := by
  induction pre generalizing s rs with
  | nil => exact ⟨[], rs, s, rfl, .nil s, h⟩
  | cons exit pre ih =>
    cases h with
    | cons h hrest =>
      obtain ⟨rs₁, rs₂, s', rfl, hpre, hpost⟩ := ih hrest
      exact ⟨_ :: rs₁, rs₂, s', rfl, .cons h hpre, hpost⟩

/-- In a list without repetitions an answer stands for a backend if it is the backend's index. -/
theorem pointed_eq_iff (hn : list.Nodup) {i : ℕ} {b : Backend} (hb : list[i]? = some b)
    (answer : Except Lb.Panic (Option ℕ)) : pointed list answer = some b ↔ answer = .ok (some i) := by
  constructor
  · rcases answer with panic | _ | j
    · exact fun h => by cases h
    · exact fun h => by cases h
    · intro h
      have h : list[j]? = some b := h
      obtain ⟨hi, hget⟩ := List.getElem?_eq_some_iff.1 hb
      obtain ⟨hj, hget'⟩ := List.getElem?_eq_some_iff.1 h
      rw [hn.getElem_inj_iff.1 (hget'.trans hget.symm)]
  · rintro rfl
    exact hb

/-- In every window of as many calls as the weights add up to, an index is returned as often as its weight. -/
theorem window_count (hlen : list.length < 2 ^ 16) (hW : 0 < totalWeight list) {i : ℕ} {b : Backend}
    (hb : list[i]? = some b) (n : ℕ) :
    (run WeightedRoundRobin.select (run WeightedRoundRobin.select .new (List.replicate n list)).2
      (List.replicate (totalWeight list) list)).1.count (.ok (some i)) = b.weight.toNat := by
  have hne : list ≠ [] := List.ne_nil_of_mem (List.mem_of_getElem? hb)
  have hi : i ∈ (roundOf list).keys := mem_roundOf.2 (List.getElem?_eq_some_iff.1 hb).1
  have hfits : Fits none (List.replicate (n + totalWeight list) list) := fits_replicate hne _
  have hno := along_noOverflow_of_lt hlen
    (fun s hs => (congrArg List.length (List.eq_of_mem_replicate hs)).le) hfits
  have hexact := (run_exact .new _ hfits hno).1
  have hdrop : (run WeightedRoundRobin.select (run WeightedRoundRobin.select .new (List.replicate n list)).2
      (List.replicate (totalWeight list) list)).1 =
      (run WeightedRoundRobin.select .new (List.replicate (n + totalWeight list) list)).1.drop n := by
    rw [drop_outputs, List.take_replicate, List.drop_replicate, Nat.min_eq_left (Nat.le_add_right ..),
      Nat.add_sub_cancel_left]
  rw [← roundOf_total] at hW hdrop hexact ⊢
  rw [hdrop, hexact, ← List.map_drop, count_ok, List.map_replicate, credit_new,
    wins_window (nodup_roundOf list) hW hi, roundOf_weight hb]

end

/-- Requests come one after the other to a proxy that balances by weights, while its healthy list stays as it is. Of
as many of them in a row as the weights add up to, if a backend answers or fails each, every backend does as many as its
weight says. -/
theorem weighted_shares (w : ℕ) (parseUri : Text → Option Uri) (p p' : Proxy) (hp : p.pool.Synced)
    (hstrategy : p.strategy = .weightedRoundRobin .new) (hlen : p.pool.healthyBackends.length < 2 ^ 16)
    (rs : List (Request × RandomRange)) (before stretch after : List Exit)
    (h : HandledInTurn w parseUri p rs (before ++ stretch ++ after) p')
    (hstretch : stretch.length = totalWeight p.pool.healthyBackends) (hserved : ∀ exit ∈ stretch, exit.backend ≠ none) :
    ∀ b ∈ p.pool.healthyBackends, (stretch.map Exit.backend).count (some b) = b.weight.toNat := by
  rintro b hb
  have hn : p.pool.healthyBackends.Nodup := by
    rw [show p.pool.healthyBackends = _ from hp]
    exact p.pool.backends_nodup.filter _
  obtain ⟨i, hi⟩ := List.getElem?_of_mem hb
  obtain ⟨rs₁, rs₂, s₂, -, hfirst, -⟩ := handledInTurn_append h
  obtain ⟨rs₀, rs₁, s₁, -, hbefore, hmid⟩ := handledInTurn_append hfirst
  obtain ⟨n, hs⟩ := weighing_run hbefore ⟨hstrategy, rfl⟩
  rw [served_run hmid hs hserved, hstretch]
  rcases Nat.eq_zero_or_pos (totalWeight p.pool.healthyBackends) with hW | hW
  · -- nothing to share
    have hle : b.weight.toNat ≤ totalWeight p.pool.healthyBackends :=
      List.single_le_sum (fun _ _ => Nat.zero_le _) _ (List.mem_map_of_mem hb)
    rw [hW] at hle ⊢
    exact (Nat.le_zero.1 hle).symm
  · rw [← window_count hlen hW hi n, List.count_eq_countP, List.countP_map, List.count_eq_countP]
    refine List.countP_congr fun answer _ => ?_
    simp only [Function.comp_apply, beq_iff_eq]
    exact pointed_eq_iff hn hi answer

/-- Weights 2 and 1: three requests that fail. -/
theorem weighted_shares_2_1 :
    let p : Proxy := ⟨.new .init [⟨0, .v4 ⟨10, 0, 0, 1⟩ 80, 2⟩, ⟨1, .v4 ⟨10, 0, 0, 2⟩ 80, 1⟩] (by decide),
      .weightedRoundRobin .new, .new⟩
    let req : Request := ⟨.v4 ⟨192, 168, 1, 1⟩ 1234, none, ⟨[]⟩⟩
    let serve : Proxy → Exit × Proxy := fun s => handleWhole 64 Uri.accept s req .lowest .error 0
    let exits := [(serve p).1, (serve (serve p).2).1, (serve (serve (serve p).2).2).1]
    ∀ b ∈ p.pool.healthyBackends, (exits.map Exit.backend).count (some b) = b.weight.toNat := by
  intro p req serve exits
  have hnext : ∀ s, Handled 64 Uri.accept s (req, .lowest) (serve s).1 (serve s).2 := fun s =>
    .inr ⟨.error, 0, rfl⟩
  have hserved : ∀ exit ∈ exits, exit.backend ≠ none := by decide
  exact weighted_shares 64 Uri.accept p _ (BackendPool.new_synced ..) rfl (by decide) _ [] exits []
    (.cons (hnext _) (.cons (hnext _) (.cons (hnext _) (.nil _)))) rfl hserved

end Gungho.Proxy
