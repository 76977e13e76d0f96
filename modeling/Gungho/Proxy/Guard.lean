/-
Connection counts: a request takes its guard once and gives it up once, whichever way it ends, so at
every moment a backend's `active_connections` is its starting value and one for each request that
holds a guard on it. The counter is a `usize` of `w` bits.
-/
import Gungho.Proxy.Handle

namespace Gungho.Proxy

open Gungho.Lib Gungho.Lb Gungho.Net Gungho.Pool

/-! ## Guards -/

/-- The request holds a guard on the backend. -/
def Handling.holds (b : Backend) (t : Handling) : Bool := t.guard.any (·.id = b.id)

/-- The number of requests that hold a guard on the backend. -/
def held (b : Backend) (requests : List Handling) : ℕ := requests.countP (Handling.holds b)

/-- The backend's connections count `x` more than `start`. -/
def Counts (w : ℕ) (b : Backend) (start : ℕ) (s : Proxy) (x : ℕ) : Prop :=
  b.getActiveConnections s.pool.mem = (start + x) % 2 ^ w

section

variable {w : ℕ} {parseUri : Text → Option Uri} {b : Backend} {start : ℕ}

theorem holds_some {t : Handling} {c : Backend} (h : t.guard = some c) : t.holds b = decide (b.id = c.id) := by
  rw [Handling.holds, h, Option.any_some]
  exact decide_eq_decide.2 eq_comm

theorem holds_none {t : Handling} (h : t.guard = none) : t.holds b = false := by
  rw [Handling.holds, h]
  rfl

theorem decrement_succ (n : ℕ) : ((n + 1) % 2 ^ w + (2 ^ w - 1)) % 2 ^ w = n % 2 ^ w := by
  have hpos : 0 < 2 ^ w := Nat.two_pow_pos w
  rw [Nat.mod_add_mod, show n + 1 + (2 ^ w - 1) = n + 2 ^ w by omega, Nat.add_mod_right]

/-- A request's step changes the count by what it changes of its own guard. -/
theorem accounted_guards (w : ℕ) (parseUri : Text → Option Uri) (b : Backend) (start : ℕ) :
    Accounted upkeep (fun r : Request × RandomRange => Handling.start r.1 r.2) (handleRequest w parseUri)
      (fun _ => True) (fun _ _ => True) (fun _ _ _ => True) (Counts w b start)
      (fun t => if t.holds b then 1 else 0) where
  env s e x hx := by cases e <;> exact hx
  spawn _ := rfl
  next s t i x _ _ _ hx := by
    unfold Counts at hx ⊢
    rcases (handleRequest_moved w parseUri s t i).guards with ⟨hmem, hguard⟩ | ⟨c, ht, ht', hmem⟩ |
      ⟨c, exit, rfl, ht', hmem⟩
    · have hholds : (handleRequest w parseUri s t i).2.holds b = t.holds b := by
        rw [Handling.holds, hguard]
        rfl
      rw [hmem, hholds, hx]
    · rw [holds_none ht, if_neg Bool.false_ne_true] at hx
      rw [hmem, Backend.getActiveConnections_incrementConnections, hx, holds_some ht']
      by_cases hbc : b.id = c.id
      · rw [if_pos hbc, if_pos (decide_eq_true hbc), Nat.mod_add_mod]
        congr 1
        omega
      · rw [if_neg hbc, if_neg (by simpa using hbc)]
    · rw [holds_some (show (Handling.leaving c exit).guard = some c from rfl)] at hx
      rw [hmem, Backend.getActiveConnections_decrementConnections, hx, holds_none ht', if_neg Bool.false_ne_true]
      by_cases hbc : b.id = c.id
      · rw [if_pos hbc, if_pos (decide_eq_true hbc), show start + (1 + x) = start + (0 + x) + 1 by omega,
          decrement_succ]
      · rw [if_neg hbc, if_neg (by simpa using hbc)]

/-- In every state of every run. -/
theorem counts_run (w : ℕ) (parseUri : Text → Option Uri) (p : Proxy) (choices : List Choice) (b : Backend)
    (hstart : b.getActiveConnections p.pool.mem < 2 ^ w) :
    Counts w b (b.getActiveConnections p.pool.mem) (run (serving w parseUri) (idle p) choices).2.shared
      (held b (run (serving w parseUri) (idle p) choices).2.threads) := by
  have hzero : Counts w b (b.getActiveConnections p.pool.mem) p 0 := (Nat.mod_eq_of_lt hstart).symm
  have hidle : Holds (fun _ => True) (fun _ _ => True) (idle p) := ⟨trivial, fun _ _ => trivial⟩
  rw [held, ← sum_indicator]
  exact balanced_run modular_true (accounted_guards w parseUri b _) hidle hzero choices (along_free choices _)

/-! ## The result -/

/-- The count of a backend in a state, next to its value in `p` before any request. -/
structure Counted (w : ℕ) (p : Proxy) (b : Backend) (s : Threads Proxy Handling) : Prop where
  wrapping : b.getActiveConnections s.shared.pool.mem =
    (b.getActiveConnections p.pool.mem + held b s.threads) % 2 ^ w
  active : b.getActiveConnections p.pool.mem + held b s.threads < 2 ^ w →
    b.getActiveConnections s.shared.pool.mem = b.getActiveConnections p.pool.mem + held b s.threads
  positive : b.getActiveConnections p.pool.mem + held b s.threads < 2 ^ w →
    ∀ guard exit, guard.id = b.id → .leaving guard exit ∈ s.threads → 0 < b.getActiveConnections s.shared.pool.mem
  ended : (∀ t ∈ s.threads, t.exit.isSome) →
    b.getActiveConnections s.shared.pool.mem = b.getActiveConnections p.pool.mem

/-- Any number of requests in any interleaving, ending in any way, beside any changes of the pool. -/
theorem active_eq_held (p : Proxy) (choices : List Choice) (b : Backend)
    (hstart : b.getActiveConnections p.pool.mem < 2 ^ w) :
    Counted w p b (run (serving w parseUri) (idle p) choices).2 := by
  have hcount := counts_run w parseUri p choices b hstart
  set s := (run (serving w parseUri) (idle p) choices).2
  have hactive : b.getActiveConnections p.pool.mem + held b s.threads < 2 ^ w →
      b.getActiveConnections s.shared.pool.mem = b.getActiveConnections p.pool.mem + held b s.threads :=
    fun hfit => hcount.trans (Nat.mod_eq_of_lt hfit)
  refine ⟨hcount, hactive, fun hfit guard exit hguard hmem => ?_, fun hended => ?_⟩
  · have hholds : (Handling.leaving guard exit).holds b = true := by
      rw [holds_some rfl]
      exact decide_eq_true hguard.symm
    have hpos : 0 < held b s.threads := List.countP_pos_iff.2 ⟨_, hmem, hholds⟩
    rw [hactive hfit]
    omega
  · have hnone : held b s.threads = 0 := by
      refine List.countP_eq_zero.2 fun t ht => ?_
      cases t with
      | ended exit => exact Bool.false_ne_true
      | _ => exact absurd (hended _ ht) Bool.false_ne_true
    have hfit : b.getActiveConnections p.pool.mem + held b s.threads < 2 ^ w := by rw [hnone]; exact hstart
    rw [hactive hfit, hnone, Nat.add_zero]

end

/-- Of two requests one is dropped at the await, the other one still waits. -/
theorem active_eq_held_pair :
    let p : Proxy := ⟨.pair, .leastConnections, .new⟩
    let req : Request × RandomRange := (⟨.v4 ⟨192, 168, 1, 1⟩ 1234, none, ⟨[]⟩⟩, .lowest)
    let choices : List Choice := [.spawn req, .spawn req] ++
      List.replicate 7 (.step 0 (.go 0)) ++ List.replicate 7 (.step 1 (.go 0)) ++ [.step 0 .cancel, .step 0 (.go 0)]
    Counted 64 p ⟨0, .v4 ⟨10, 0, 0, 1⟩ 80, 1⟩ (run (serving 64 Uri.accept) (idle p) choices).2 :=
  active_eq_held _ _ _ (by decide)

end Gungho.Proxy
