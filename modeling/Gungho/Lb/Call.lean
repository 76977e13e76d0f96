/-
Calls of `select` in progress. Round robin, IP hash and random do one atomic operation, if any; least
connections loads one counter after the other, and the weighted strategy does two or three atomic
operations for each backend. Concurrent calls share the strategy and take these steps in turns; a call
that runs undisturbed is the sequential `select`.
-/
import Gungho.Lb.Strategy

namespace Gungho.Lb

open Gungho.Net Gungho.Pool

/-! ## Steps -/

/-- The local variables of the weighted `select` in its loop. -/
structure Locals where
  totalWeight : Int64
  bestIndex : Nat
  bestCredit : Int64
  deriving DecidableEq, Repr

def Locals.start : Locals := ⟨0, 0, Int64.minValue⟩

/-- The variables of the sequential loop, which include the vector. -/
def Locals.scan (l : Locals) (credits : List Int64) : WeightedRoundRobin.Scan :=
  ⟨credits, l.totalWeight, l.bestIndex, l.bestCredit⟩

/-- Where a call of `select` is. `rest` is what its loop has yet to visit, `i` the position of the loop. -/
inductive Call where
  | enter (backends : List Backend) (clientAddr : Option SocketAddr) (rng : RandomRange)
  | scan (rest : List (Backend × Nat)) (least : Nat × Nat)
  | add (i : Nat) (rest : List Backend) (l : Locals)
  | load (i : Nat) (rest : List Backend) (l : Locals)
  | reload (i : Nat) (rest : List Backend) (l : Locals)
  | done (result : Except Panic (Option Nat))

/-- The credits as a call finds them once it has passed `get_or_init`. -/
def WeightedRoundRobin.vec (s : WeightedRoundRobin) : List Int64 := s.credits.getD []

namespace Call

def result : Call → Option (Except Panic (Option Nat))
  | .done result => some result
  | _ => none

/-- The next step of the weighted `select`. -/
def nextWeighted (s : WeightedRoundRobin) : Call → WeightedRoundRobin × Call
  | .enter backends _ _ =>
    if backends.isEmpty then (s, .done (.ok none))
    else (⟨some (s.getOrInit backends)⟩, .add 0 backends .start)
  | .add i (b :: rest) l =>
    match s.vec[i]? with
    | none => (s, .done (.error (.indexOutOfBounds s.vec.length i)))
    | some credit =>
      -- `fetch_add`
      (⟨some (s.vec.set i (credit + WeightedRoundRobin.weight b))⟩,
        .load i rest { l with totalWeight := l.totalWeight + WeightedRoundRobin.weight b })
  -- the slot is there: the call has just added to it
  | .load i rest l =>
    if l.bestCredit < s.vec[i]?.getD 0 then (s, .reload i rest l) else (s, .add (i + 1) rest l)
  | .reload i rest l => (s, .add (i + 1) rest { l with bestIndex := i, bestCredit := s.vec[i]?.getD 0 })
  | .add _ [] l =>
    match s.vec[l.bestIndex]? with
    | some winnerCredit =>
      -- `fetch_sub`
      (⟨some (s.vec.set l.bestIndex (winnerCredit - l.totalWeight))⟩, .done (.ok (some l.bestIndex)))
    | none => (s, .done (.ok (some l.bestIndex)))
  | c => (s, c)

/-- The next step of `LeastConnections::select`. -/
def nextLeast (w : Nat) (mem : Mem) : Call → Call
  | .enter backends _ _ => if backends.isEmpty then .done (.ok none) else .scan backends.zipIdx (0, 2 ^ w - 1)
  | .scan (entry :: rest) least => .scan rest (LeastConnections.visit mem least entry)
  | .scan [] least => .done (.ok (some least.1))
  | c => c

/-- The next atomic step of a call. -/
def next (w : Nat) (mem : Mem) : Strategy → Call → Strategy × Call
  | .roundRobin s, .enter backends _ _ =>
    (.roundRobin (s.select w backends).2, .done (.ok (s.select w backends).1))
  | .ipHash, .enter backends clientAddr _ => (.ipHash, .done (.ok (IpHash.select backends clientAddr)))
  | .random, .enter backends _ rng => (.random, .done (.ok (Random.select rng backends)))
  | .leastConnections, c => (.leastConnections, c.nextLeast w mem)
  | .weightedRoundRobin s, c => (.weightedRoundRobin (nextWeighted s c).1, (nextWeighted s c).2)
  | s, c => (s, c)

/-! ## A call on its own -/

/-- `n` steps of a call with no other call's step between them. -/
def alone (w : Nat) (mem : Mem) : Nat → Strategy × Call → Strategy × Call
  | 0, p => p
  | n + 1, p => alone w mem n (p.2.next w mem p.1)

theorem alone_add (w : Nat) (mem : Mem) (m n : Nat) (p : Strategy × Call) :
    alone w mem (m + n) p = alone w mem n (alone w mem m p) := by
  induction m generalizing p with
  | zero => rw [Nat.zero_add]; rfl
  | succ m ih => rw [Nat.succ_add]; exact ih _

theorem scan_alone (w : Nat) (mem : Mem) (rest : List (Backend × Nat)) (least : Nat × Nat) :
    alone w mem (rest.length + 1) (.leastConnections, .scan rest least) =
      (.leastConnections, .done (.ok (some (rest.foldl (LeastConnections.visit mem) least).1))) := by
  induction rest generalizing least with
  | nil => rfl
  | cons entry rest ih => exact ih (LeastConnections.visit mem least entry)

/-- One round of the loop, with two loads or three operations, is one visit of the sequential loop. -/
theorem visit_alone (w : Nat) (mem : Mem) (i : Nat) (b : Backend) (rest : List Backend) (l : Locals)
    {credits : List Int64} {credit : Int64} (hc : credits[i]? = some credit) :
    ∃ n l' credits', alone w mem n (.weightedRoundRobin ⟨some credits⟩, .add i (b :: rest) l) =
        (.weightedRoundRobin ⟨some credits'⟩, .add (i + 1) rest l') ∧
      l'.scan credits' = (l.scan credits).visit i b credit := by
  have hi : i < credits.length := (List.getElem?_eq_some_iff.1 hc).1
  have hget : (credits.set i (credit + WeightedRoundRobin.weight b))[i]?.getD 0 =
      credit + WeightedRoundRobin.weight b := by
    rw [List.getElem?_set_self hi]; rfl
  by_cases hbest : l.bestCredit < credit + WeightedRoundRobin.weight b
  · refine ⟨3, ⟨l.totalWeight + WeightedRoundRobin.weight b, i, credit + WeightedRoundRobin.weight b⟩,
      credits.set i (credit + WeightedRoundRobin.weight b), ?_, ?_⟩
    · simp only [alone, next, nextWeighted, WeightedRoundRobin.vec, Option.getD_some, hc, hget, if_pos hbest]
    · simp [Locals.scan, WeightedRoundRobin.Scan.visit, hbest]
  · refine ⟨2, ⟨l.totalWeight + WeightedRoundRobin.weight b, l.bestIndex, l.bestCredit⟩,
      credits.set i (credit + WeightedRoundRobin.weight b), ?_, ?_⟩
    · simp only [alone, next, nextWeighted, WeightedRoundRobin.vec, Option.getD_some, hc, hget, if_neg hbest]
    · simp [Locals.scan, WeightedRoundRobin.Scan.visit, hbest]

/-- What the sequential `select` does once its loop has ended. -/
def finish : Option Panic × WeightedRoundRobin.Scan → Except Panic (Option Nat) × WeightedRoundRobin
  | (some panic, t) => (.error panic, ⟨some t.credits⟩)
  | (none, t) =>
    match t.credits[t.bestIndex]? with
    | some winnerCredit => (.ok (some t.bestIndex), ⟨some (t.credits.set t.bestIndex (winnerCredit - t.totalWeight))⟩)
    | none => (.ok (some t.bestIndex), ⟨some t.credits⟩)

theorem loop_alone (w : Nat) (mem : Mem) (rest : List Backend) :
    ∀ (i : Nat) (l : Locals) (credits : List Int64), ∃ n,
      alone w mem n (.weightedRoundRobin ⟨some credits⟩, .add i rest l) =
        (.weightedRoundRobin (finish (WeightedRoundRobin.scan (l.scan credits) i rest)).2,
          .done (finish (WeightedRoundRobin.scan (l.scan credits) i rest)).1) := by
  induction rest with
  | nil =>
    intro i l credits
    refine ⟨1, ?_⟩
    simp only [alone, next, nextWeighted, WeightedRoundRobin.vec, Option.getD_some, WeightedRoundRobin.scan, finish,
      Locals.scan]
    rcases credits[l.bestIndex]? with _ | winnerCredit <;> rfl
  | cons b rest ih =>
    intro i l credits
    rcases hc : credits[i]? with _ | credit
    · refine ⟨1, ?_⟩
      simp only [alone, next, nextWeighted, WeightedRoundRobin.vec, Option.getD_some, hc, WeightedRoundRobin.scan,
        finish, Locals.scan]
    · obtain ⟨m, l', credits', hround, hvisit⟩ := visit_alone w mem i b rest l hc
      obtain ⟨n, hrest⟩ := ih (i + 1) l' credits'
      have hscan : WeightedRoundRobin.scan (l.scan credits) i (b :: rest) =
          WeightedRoundRobin.scan (l'.scan credits') (i + 1) rest := by
        rw [hvisit, WeightedRoundRobin.scan]
        simp only [Locals.scan, hc]
      exact ⟨m + n, by rw [alone_add, hround, hrest, hscan]⟩

end Call

/-- A call that runs undisturbed ends with the result of the sequential `select` and leaves the
strategy as it does. -/
theorem select_alone (w : Nat) (mem : Mem) (rng : RandomRange) (s : Strategy) (backends : List Backend)
    (clientAddr : Option SocketAddr) :
    ∃ n, Call.alone w mem n (s, .enter backends clientAddr rng) =
      ((s.select w mem rng backends clientAddr).2, .done (s.select w mem rng backends clientAddr).1) := by
  cases s with
  | roundRobin s => exact ⟨1, rfl⟩
  | ipHash => exact ⟨1, rfl⟩
  | random => exact ⟨1, rfl⟩
  | leastConnections =>
    by_cases hb : backends.isEmpty = true
    · refine ⟨1, ?_⟩
      simp only [Call.alone, Call.next, Call.nextLeast, if_pos hb, Strategy.select, LeastConnections.select]
    · refine ⟨1 + (backends.zipIdx.length + 1), ?_⟩
      have henter : Call.alone w mem 1 (.leastConnections, .enter backends clientAddr rng) =
          (.leastConnections, .scan backends.zipIdx (0, 2 ^ w - 1)) := by
        simp only [Call.alone, Call.next, Call.nextLeast, if_neg hb]
      rw [Call.alone_add, henter, Call.scan_alone]
      simp only [Strategy.select, LeastConnections.select, if_neg hb]
  | weightedRoundRobin s =>
    by_cases hb : backends.isEmpty = true
    · refine ⟨1, ?_⟩
      simp only [Call.alone, Call.next, Call.nextWeighted, if_pos hb, Strategy.select, WeightedRoundRobin.select]
    · obtain ⟨n, hloop⟩ := Call.loop_alone w mem backends 0 .start (s.getOrInit backends)
      refine ⟨1 + n, ?_⟩
      have henter : Call.alone w mem 1 (.weightedRoundRobin s, .enter backends clientAddr rng) =
          (.weightedRoundRobin ⟨some (s.getOrInit backends)⟩, .add 0 backends .start) := by
        simp only [Call.alone, Call.next, Call.nextWeighted, if_neg hb]
      have hselect : s.select backends =
          Call.finish (WeightedRoundRobin.scan (.start (s.getOrInit backends)) 0 backends) := by
        unfold WeightedRoundRobin.select Call.finish
        exact (if_neg hb).trans rfl
      rw [Call.alone_add, henter, hloop]
      exact congrArg (fun r => (Strategy.weightedRoundRobin r.2, Call.done r.1)) hselect.symm

end Gungho.Lb
