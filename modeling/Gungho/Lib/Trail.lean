/-
The run of one value at the end of a sequence. Sequences are kept newest first, so the last `n`
entries are the first `n` of the list.
-/
import Mathlib.Data.List.Basic

namespace Gungho.Lib

variable {α : Type*} [DecidableEq α]

/-- How many of the newest entries in a row are `x`. -/
def trail (x : α) : List α → Nat
  | [] => 0
  | y :: ys => if y = x then trail x ys + 1 else 0

@[simp] theorem trail_nil (x : α) : trail x [] = 0 := rfl

@[simp] theorem trail_cons_self (x : α) (ys : List α) : trail x (x :: ys) = trail x ys + 1 := if_pos rfl

theorem trail_cons_ne {x y : α} (h : y ≠ x) (ys : List α) : trail x (y :: ys) = 0 := if_neg h

/-- The trailing run has length `n` or more exactly when there are `n` last entries and all are `x`. -/
theorem le_trail_iff (x : α) (n : Nat) (ys : List α) : n ≤ trail x ys ↔ ys.take n = List.replicate n x := by
  induction ys generalizing n with
  | nil => cases n <;> simp [List.replicate_succ]
  | cons y ys ih =>
    cases n with
    | zero => simp
    | succ n =>
      rw [List.take_succ_cons, List.replicate_succ, List.cons.injEq, ← ih n]
      by_cases h : y = x
      · subst h; simp
      · rw [trail_cons_ne h]; simp [h]

theorem trail_map {β : Type*} [DecidableEq β] {f : α → β} (hf : Function.Injective f) (x : α) (ys : List α) :
    trail (f x) (ys.map f) = trail x ys := by
  induction ys with
  | nil => rfl
  | cons y ys ih => simp only [List.map_cons, trail, ih, hf.eq_iff]

/-- `n` entries in a row are all `x` somewhere in a sequence when they are the newest, or were before the
newest entry. -/
theorem replicate_infix_cons_iff (n : Nat) (x y : α) (ys : List α) :
    List.replicate n x <:+: y :: ys ↔ n ≤ trail x (y :: ys) ∨ List.replicate n x <:+: ys := by
  rw [List.infix_cons_iff, List.prefix_iff_eq_take, List.length_replicate, le_trail_iff, eq_comm]

end Gungho.Lib
