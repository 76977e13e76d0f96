/-
The rotation of round robin under concurrent callers. `select` does one `fetch_add`, so in the order
of the `fetch_add`s the indices are the residues of consecutive counter values, whatever the
interleaving. The counter wraps at 2 ^ w, of which the number of backends need not be a divisor: a
window of one rotation across the wrap may have an index twice and another not at all.
-/
import Gungho.Lb.Concurrent
import Gungho.Lib.Journal
import Gungho.Lib.Residue

namespace Gungho.Lb

open Gungho.Lib Gungho.Lib.Residue Gungho.Net Gungho.Pool

/-! ## The machine -/

/-- Any number of calls on `slice` in any interleaving. The connection counts may be others at every
step. The indices are listed in the order of the `fetch_add`s. -/
def rotating (w : ℕ) (slice : List Backend) (s : Threads (Strategy × List ℕ) Call) :
    Sched Empty (Option SocketAddr × RandomRange) Mem → Unit × Threads (Strategy × List ℕ) Call :=
  interleave (fun _ e => e.elim) (fun r => .enter slice r.1 r.2)
    (journaled (fun s c mem => c.next w mem s) Call.index) s

/-- A round robin on which no call has started. -/
def RoundRobin.idle (s : RoundRobin) : Threads (Strategy × List ℕ) Call := ⟨(.roundRobin s, []), []⟩

namespace RoundRobin

/-- One `fetch_add` and the index it gives on `n` backends. -/
def turn (w n : ℕ) (s : RoundRobin) : ℕ × RoundRobin := (s.counter % n, ⟨(s.counter + 1) % 2 ^ w⟩)

theorem select_eq_turn (w : ℕ) (s : RoundRobin) {slice : List Backend} (h : slice ≠ []) :
    s.select w slice = (some (s.turn w slice.length).1, (s.turn w slice.length).2) := by
  unfold select turn
  rw [if_neg (by simpa using h)]

/-- The indices of `k` turns are the residues of the counter values from `s.counter` on. -/
theorem operations_turn (w n : ℕ) {s : RoundRobin} (hs : s.counter < 2 ^ w) (k : ℕ) :
    operations (turn w n) s k =
      ((List.range k).map fun j => (s.counter + j) % 2 ^ w % n, ⟨(s.counter + k) % 2 ^ w⟩) := by
  induction k with
  | zero => rw [operations, List.range_zero, List.map_nil, Nat.add_zero, Nat.mod_eq_of_lt hs]
  | succ k ih =>
    rw [operations, ih, turn, List.range_succ, List.map_append, List.map_singleton, Nat.mod_add_mod,
      Nat.add_assoc]

end RoundRobin

/-- A call of round robin has yet to do its `fetch_add`, or has returned an index. -/
def Turning (slice : List Backend) : Call → Prop
  | .enter backends _ _ => backends = slice
  | .done result => ∃ index, result = .ok (some index)
  | _ => False

/-- The calls share one atomic operation, the turn of the counter. -/
theorem atomic_roundRobin (w : ℕ) {slice : List Backend} (hne : slice ≠ []) :
    Atomic (fun r : Option SocketAddr × RandomRange => Call.enter slice r.1 r.2)
      (fun s c (mem : Mem) => c.next w mem s) Call.index (Turning slice) Strategy.roundRobin
      (RoundRobin.turn w slice.length) := by
  have hturn : ∀ s c (mem : Mem), Turning slice c → Call.index c = none →
      c.next w mem (.roundRobin s) =
        (.roundRobin (s.turn w slice.length).2, .done (.ok (some (s.turn w slice.length).1))) := by
    intro s c mem hc hindex
    cases c with
    | enter backends clientAddr rng =>
      obtain rfl : backends = slice := hc
      rw [Call.next, s.select_eq_turn w hne]
    | done result => obtain ⟨index, rfl⟩ := hc; cases hindex
    | _ => cases hc
  have hdone : ∀ s c (mem : Mem) index, Turning slice c → Call.index c = some index →
      c.next w mem (.roundRobin s) = (.roundRobin s, c) := by
    intro s c mem index hc hindex
    cases c with
    | enter backends clientAddr rng => cases hindex
    | done result => rfl
    | _ => cases hc
  refine ⟨fun _ => ⟨rfl, rfl⟩, fun s c mem hc => ?_, fun s c mem index hc hindex => ?_, fun s c mem hc hindex => ?_⟩
  · rcases hindex : c.index with _ | index
    · rw [hturn s c mem hc hindex]
      exact ⟨_, rfl⟩
    · rw [hdone s c mem index hc hindex]
      exact hc
  · rw [hdone s c mem index hc hindex]
    exact ⟨rfl, hindex⟩
  · rw [hturn s c mem hc hindex]
    exact .inr ⟨rfl, rfl⟩

/-! ## Every window -/

/-- Between any two steps every call has yet to do its `fetch_add` or has returned an index. -/
theorem turning_run (w : ℕ) {slice : List Backend} (hne : slice ≠ []) (s : RoundRobin)
    (choices : List (Sched Empty (Option SocketAddr × RandomRange) Mem)) :
    ∀ call ∈ (run (rotating w slice) s.idle choices).2.threads, Turning slice call :=
  (holds_run (modular_journaled (atomic_roundRobin w hne) s) choices (inOrder_start s) (along_free choices _)).2

/-- The indices of a run in the order of the `fetch_add`s, the counter after them, and the indices the
calls have returned. -/
theorem turns_run (w : ℕ) {slice : List Backend} (hne : slice ≠ []) {s : RoundRobin} (hs : s.counter < 2 ^ w)
    (choices : List (Sched Empty (Option SocketAddr × RandomRange) Mem)) :
    let t := (run (rotating w slice) s.idle choices).2
    t.shared.1 = .roundRobin ⟨(s.counter + t.shared.2.length) % 2 ^ w⟩ ∧
      (List.range t.shared.2.length).map (fun j => (s.counter + j) % 2 ^ w % slice.length) = t.shared.2 ∧
      (t.threads.filterMap Call.index).Perm t.shared.2 := by
  intro t
  have hshared : t.shared = (.roundRobin (operations (RoundRobin.turn w slice.length) s t.shared.2.length).2,
      (operations (RoundRobin.turn w slice.length) s t.shared.2.length).1) :=
    journal_run (atomic_roundRobin w hne) s choices
  rw [RoundRobin.operations_turn w slice.length hs] at hshared
  exact ⟨congrArg Prod.fst hshared, (congrArg Prod.snd hshared).symm,
    returned_perm (atomic_roundRobin w hne) s choices⟩

/-- What the indices of a run are, from a round robin whose counter is `c`: the calls return them, each
once, and a call that has not returned one is at its entry; every window of one rotation has no index more
than twice, and each index once unless the counter wraps inside it and the number of backends is no divisor
of 2 ^ w. -/
structure Rotates (w n c : ℕ) (t : Threads (Strategy × List ℕ) Call) : Prop where
  counter : t.shared.1 = .roundRobin ⟨(c + t.shared.2.length) % 2 ^ w⟩
  calls : ∀ call ∈ t.threads, (∃ backends clientAddr rng, call = .enter backends clientAddr rng) ∨
    ∃ index ∈ t.shared.2, call = .done (.ok (some index))
  returned : (t.threads.filterMap Call.index).Perm t.shared.2
  index : ∀ index ∈ t.shared.2, index < n
  twice : ∀ before window after, t.shared.2 = before ++ window ++ after → window.length = n →
    ∀ i, window.count i ≤ 2
  once : ∀ before window after, t.shared.2 = before ++ window ++ after → window.length = n →
    ((c + before.length) % 2 ^ w + n ≤ 2 ^ w ∨ n ∣ 2 ^ w) → ∀ i < n, window.count i = 1
  share : c = 0 → ∀ k ≤ t.shared.2.length, k ≤ 2 ^ w → ∀ i < n,
    (t.shared.2.take k).count i = k / n ∨ (t.shared.2.take k).count i = (k + n - 1) / n

theorem rotates_run (w : ℕ) {slice : List Backend} (hne : slice ≠ []) (hw : slice.length ≤ 2 ^ w) {s : RoundRobin}
    (hs : s.counter < 2 ^ w) (choices : List (Sched Empty (Option SocketAddr × RandomRange) Mem)) :
    Rotates w slice.length s.counter (run (rotating w slice) s.idle choices).2 := by
  obtain ⟨hcounter, hlog, hreturned⟩ := turns_run w hne hs choices
  have hpos : 0 < slice.length := List.length_pos_iff.2 hne
  have hindex : ∀ index ∈ (run (rotating w slice) s.idle choices).2.shared.2, index < slice.length := by
    intro index hmem
    rw [← hlog, List.mem_map] at hmem
    obtain ⟨j, -, rfl⟩ := hmem
    exact Nat.mod_lt _ hpos
  -- a window's counter values are consecutive from the value before its first `fetch_add`
  have hcount : ∀ before window after, (run (rotating w slice) s.idle choices).2.shared.2 = before ++ window ++ after →
      ∀ i, window.count i =
        wrapped (2 ^ w) slice.length i ((s.counter + before.length) % 2 ^ w) window.length := by
    intro before window after hsplit i
    rw [stretch_eq (hlog.trans hsplit), count_map_range, wrapped]
    simp only [List.length_map, List.length_range, Nat.mod_add_mod, Nat.add_assoc]
  refine ⟨hcounter, fun call hmem => ?_, hreturned, hindex, fun before window after hsplit hlen i => ?_,
    fun before window after hsplit hlen hwrap i hi => ?_, fun hc k hk hkw i hi => ?_⟩
  · have hturning := turning_run w hne s choices call hmem
    cases call with
    | enter backends clientAddr rng => exact .inl ⟨backends, clientAddr, rng, rfl⟩
    | done result =>
      obtain ⟨index, rfl⟩ := hturning
      exact .inr ⟨index, hreturned.mem_iff.1 (List.mem_filterMap.2 ⟨_, hmem, rfl⟩), rfl⟩
    | _ => cases hturning
  · by_cases hi : i < slice.length
    · rw [hcount before window after hsplit i, hlen]
      exact wrapped_le_two hi hw (Nat.mod_lt _ (Nat.two_pow_pos w))
    · have hnone : window.count i = 0 := List.count_eq_zero.2 fun hmem =>
        hi (hindex i (by rw [hsplit]; simp [hmem]))
      omega
  · rw [hcount before window after hsplit i, hlen]
    exact wrapped_eq_one hi hwrap
  · have hsplit := (List.take_append_drop k (run (rotating w slice) s.idle choices).2.shared.2).symm
    rw [hcount [] _ _ hsplit i, List.length_take, Nat.min_eq_left hk, hc, List.length_nil, Nat.zero_add,
      Nat.zero_mod, wrapped_of_le (by omega)]
    exact hits_zero_floor_or_ceil hi k

/-- Two calls on two backends, the counter about to wrap. -/
theorem rotates_run_pair :
    Rotates 64 2 (2 ^ 64 - 1) (run (rotating 64 BackendPool.pair.backends) (RoundRobin.idle ⟨2 ^ 64 - 1⟩)
      [.spawn (none, .lowest), .spawn (none, .lowest), .step 1 .init, .step 0 .init]).2 :=
  rotates_run 64 (show BackendPool.pair.backends ≠ [] from List.cons_ne_nil _ _) (by decide) (s := ⟨2 ^ 64 - 1⟩)
    (by decide) _

/-- Three backends on a counter of two bits: across the wrap the first is chosen twice, the last not at all. -/
example : (operations (RoundRobin.turn 2 3) ⟨3⟩ 3).1 = [0, 0, 1] := rfl

end Gungho.Lb
