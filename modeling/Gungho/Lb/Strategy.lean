/-
The load-balancing strategies: `lb/`. `select` is one function over the five of them; it may
change the strategy's own state and, through an index out of bounds, panic. `usize` has `w` bits.
-/
import Gungho.Lb.WeightedRoundRobin

namespace Gungho.Lb

open Gungho.Net Gungho.Pool

/-! ## Round robin -/

structure RoundRobin where
  counter : Nat
  deriving DecidableEq, Repr

def RoundRobin.new : RoundRobin := ⟨0⟩

/-- `fetch_add` wraps. -/
def RoundRobin.select (w : Nat) (s : RoundRobin) (backends : List Backend) : Option Nat × RoundRobin :=
  if backends.isEmpty then (none, s)
  else (some (s.counter % backends.length), ⟨(s.counter + 1) % 2 ^ w⟩)

/-! ## Least connections -/

namespace LeastConnections

/-- The body of the loop on `(least_index, least_conns)`. -/
def visit (mem : Mem) (least : Nat × Nat) (entry : Backend × Nat) : Nat × Nat :=
  let conns := entry.1.getActiveConnections mem
  if conns < least.2 then (entry.2, conns) else least

/-- The scan starts from index 0 and `usize::MAX`. -/
def select (w : Nat) (mem : Mem) (backends : List Backend) : Option Nat :=
  if backends.isEmpty then none
  else some (backends.zipIdx.foldl (visit mem) (0, 2 ^ w - 1)).1

end LeastConnections

/-! ## IP hash -/

namespace IpHash

/-- Every intermediate value is below `6271 * 113 + 256 < 2 ^ 20`: no `usize` overflows. -/
def hashIp (addr : SocketAddr) : Nat :=
  addr.ip.octets.foldl (fun hash byte => (hash * 113 + byte.toNat) % 6271) 89

def select (backends : List Backend) (clientAddr : Option SocketAddr) : Option Nat :=
  if backends.isEmpty then none
  else some (clientAddr.elim 0 fun addr => hashIp addr % backends.length)

end IpHash

/-! ## Random -/

/-- A source of `rand::random_range(0..n)`: what it returns lies in the range. -/
structure RandomRange where
  draw : Nat → Nat
  lt : ∀ n, 0 < n → draw n < n

/-- The source that always returns the lower end of the range. -/
def RandomRange.lowest : RandomRange := ⟨fun _ => 0, fun _ h => h⟩

def Random.select (random : RandomRange) (backends : List Backend) : Option Nat :=
  if backends.isEmpty then none else some (random.draw backends.length)

/-! ## The factory -/

/-- A `Box<dyn LoadBalancingStrategy>`. -/
inductive Strategy where
  | roundRobin (s : RoundRobin)
  | weightedRoundRobin (s : WeightedRoundRobin)
  | leastConnections
  | ipHash
  | random
  deriving DecidableEq

def createStrategy : Algorithm → Strategy
  | .roundRobin => .roundRobin .new
  | .weightedRoundRobin => .weightedRoundRobin .new
  | .leastConnections => .leastConnections
  | .ipHash => .ipHash
  | .random => .random

namespace Strategy

def algorithm : Strategy → Algorithm
  | .roundRobin _ => .roundRobin
  | .weightedRoundRobin _ => .weightedRoundRobin
  | .leastConnections => .leastConnections
  | .ipHash => .ipHash
  | .random => .random

def select (w : Nat) (mem : Mem) (rng : RandomRange) (s : Strategy) (backends : List Backend)
    (clientAddr : Option SocketAddr) : Except Panic (Option Nat) × Strategy :=
  match s with
  | .roundRobin s => (.ok (s.select w backends).1, .roundRobin (s.select w backends).2)
  | .weightedRoundRobin s => ((s.select backends).1, .weightedRoundRobin (s.select backends).2)
  | .leastConnections => (.ok (LeastConnections.select w mem backends), .leastConnections)
  | .ipHash => (.ok (IpHash.select backends clientAddr), .ipHash)
  | .random => (.ok (Random.select rng backends), .random)

end Strategy

/-- The factory creates a strategy of the algorithm it is asked for. -/
@[simp] theorem algorithm_createStrategy (a : Algorithm) : (createStrategy a).algorithm = a := by
  cases a <;> rfl

/-! ## Indices -/

/-- What a caller relies on: no panic, `None` on an empty slice, else an index of the slice. -/
def Valid (backends : List Backend) (result : Except Panic (Option Nat)) : Prop :=
  (backends = [] ∧ result = .ok none) ∨ ∃ i < backends.length, result = .ok (some i)

theorem valid_nil {result : Except Panic (Option Nat)} (h : result = .ok none) : Valid [] result := .inl ⟨rfl, h⟩

/-- A strategy that answers an empty slice with `None` and any other slice with an index of it. -/
theorem valid_of_index {backends : List Backend} {i : Nat} (h : backends ≠ [] → i < backends.length) :
    Valid backends (.ok (if backends.isEmpty then none else some i)) := by
  by_cases hb : backends = []
  · subst hb; exact valid_nil rfl
  · rw [if_neg (by simpa using hb)]
    exact .inr ⟨i, h hb, rfl⟩

theorem RoundRobin.select_valid (w : Nat) (s : RoundRobin) (backends : List Backend) :
    Valid backends (.ok (s.select w backends).1) := by
  unfold RoundRobin.select
  rw [apply_ite Prod.fst]
  exact valid_of_index fun h => Nat.mod_lt _ (List.length_pos_iff.2 h)

/-- The scan ends on an index it visited or on the initial 0. -/
theorem LeastConnections.select_valid (w : Nat) (mem : Mem) (backends : List Backend) :
    Valid backends (.ok (LeastConnections.select w mem backends)) := by
  refine valid_of_index fun h => ?_
  refine List.foldlRecOn (motive := fun least : Nat × Nat => least.1 < backends.length) backends.zipIdx _
    (List.length_pos_iff.2 h) fun least hleast entry hentry => ?_
  unfold visit
  dsimp only
  split
  · have := List.mem_zipIdx hentry; omega
  · exact hleast

theorem IpHash.select_valid (backends : List Backend) (clientAddr : Option SocketAddr) :
    Valid backends (.ok (IpHash.select backends clientAddr)) := by
  refine valid_of_index fun h => ?_
  have hpos := List.length_pos_iff.2 h
  cases clientAddr with
  | none => exact hpos
  | some addr => exact Nat.mod_lt _ hpos

theorem Random.select_valid (random : RandomRange) (backends : List Backend) :
    Valid backends (.ok (Random.select random backends)) :=
  valid_of_index fun h => random.lt _ (List.length_pos_iff.2 h)

/-- Every strategy but the weighted one answers every slice with a valid index and stays of its kind. -/
theorem Strategy.select_valid (w : Nat) (mem : Mem) (rng : RandomRange) {s : Strategy}
    (hs : s.algorithm ≠ .weightedRoundRobin) (backends : List Backend) (clientAddr : Option SocketAddr) :
    Valid backends (s.select w mem rng backends clientAddr).1 ∧
      (s.select w mem rng backends clientAddr).2.algorithm = s.algorithm := by
  cases s with
  | roundRobin s => exact ⟨s.select_valid w backends, rfl⟩
  | weightedRoundRobin s => exact absurd rfl hs
  | leastConnections => exact ⟨LeastConnections.select_valid w mem backends, rfl⟩
  | ipHash => exact ⟨IpHash.select_valid backends clientAddr, rfl⟩
  | random => exact ⟨Random.select_valid rng backends, rfl⟩

end Gungho.Lb
