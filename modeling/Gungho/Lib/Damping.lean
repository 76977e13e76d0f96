/-
A switch with hysteresis: it turns to a value once a given number of entries in a row have that value.
Every turn uses up the entries of the run that made it, so a long sequence turns the switch seldom.
Sequences of entries are kept newest first, sequences of observations oldest first.
-/
import Gungho.Lib.Trail
import Mathlib.Tactic.Ring

namespace Gungho.Lib

/-! ## Changes between neighbours -/

section

variable {α : Type*} [DecidableEq α]

/-- How often an entry differs from the one before. -/
def changes : List α → Nat
  | x :: y :: l => (if x = y then 0 else 1) + changes (y :: l)
  | _ => 0

theorem changes_concat (l : List α) (x y : α) :
    changes (l ++ [x, y]) = changes (l ++ [x]) + if x = y then 0 else 1 := by
  induction l with
  | nil => simp [changes]
  | cons z l ih =>
    cases l with
    | nil => simp [changes]
    | cons z' l =>
      simp only [List.cons_append, changes] at ih ⊢
      rw [ih, Nat.add_assoc]

theorem changes_of_forall {l : List α} {x : α} (h : ∀ y ∈ l, y = x) : changes l = 0 := by
  induction l with
  | nil => rfl
  | cons y l ih =>
    cases l with
    | nil => rfl
    | cons z l =>
      have hy : y = x := h y (by simp)
      have hz : z = x := h z (by simp)
      rw [changes, ih fun w hw => h w (List.mem_cons_of_mem y hw), if_pos (hy.trans hz.symm)]

end

/-! ## The switch -/

section

variable (need : Bool → Nat)

/-- The value of the switch, which starts on `true`: it turns when the entries against it reach the number needed
for the other value. -/
def switch : List Bool → Bool
  | [] => true
  | v :: rest => if need v ≤ trail v (v :: rest) then v else switch rest

/-- How often the switch has turned. -/
def turns : List Bool → Nat
  | [] => 0
  | v :: rest => turns rest + if switch need (v :: rest) = switch need rest then 0 else 1

/-- The entries that `n` turns use up: the first turn is to `false`, the second back to `true`. -/
def cost : Nat → Nat
  | 0 => 0
  | n + 1 => cost n + need (n % 2 == 1)

theorem cost_eq (n : Nat) : cost need n = n / 2 * (need true + need false) + n % 2 * need false := by
  induction n with
  | zero => simp [cost]
  | succ n ih =>
    rw [cost, ih]
    rcases Nat.mod_two_eq_zero_or_one n with h | h
    · rw [h, show (n + 1) / 2 = n / 2 by omega, show (n + 1) % 2 = 1 by omega]
      simp
    · rw [h, show (n + 1) / 2 = n / 2 + 1 by omega, show (n + 1) % 2 = 0 by omega]
      simp only [beq_self_eq_true]
      ring

theorem cost_mono {m n : Nat} (h : m ≤ n) : cost need m ≤ cost need n := by
  induction h with
  | refl => exact Nat.le_refl _
  | step _ ih => exact Nat.le_trans ih (Nat.le_add_right _ _)

/-- The turns so far say where the switch is, and they and the run against it fit into the entries. -/
structure Damped (entries : List Bool) : Prop where
  parity : switch need entries = (turns need entries % 2 == 0)
  below : trail (!switch need entries) entries < need (!switch need entries)
  fits : cost need (turns need entries) + trail (!switch need entries) entries ≤ entries.length

/-- A batch of entries between two looks at the switch turns it at least as often as the looks differ. -/
theorem turns_append (batch rest : List Bool) :
    turns need rest + (if switch need (batch ++ rest) = switch need rest then 0 else 1) ≤
      turns need (batch ++ rest) := by
  induction batch with
  | nil => simp
  | cons v batch ih =>
    rw [List.cons_append, turns]
    by_cases h : switch need (v :: (batch ++ rest)) = switch need (batch ++ rest)
    · rw [h, if_pos rfl, Nat.add_zero]
      exact ih
    · rw [if_neg h]
      split <;> omega

variable {need}

theorem damped (hpos : ∀ v, 1 ≤ need v) (entries : List Bool) : Damped need entries := by
  induction entries with
  | nil => exact ⟨rfl, hpos _, Nat.le_refl _⟩
  | cons v rest ih =>
    obtain ⟨hparity, hbelow, hfits⟩ := ih
    have hother : trail (!v) (v :: rest) = 0 := trail_cons_ne (by cases v <;> decide) rest
    by_cases hturn : switch need (v :: rest) = switch need rest
    · -- no turn: the entry has the value of the switch, or the run against it is still short
      have hturns : turns need (v :: rest) = turns need rest := by rw [turns, if_pos hturn, Nat.add_zero]
      by_cases hv : v = switch need rest
      · have hzero : trail (!switch need rest) (v :: rest) = 0 := by rw [← hv]; exact hother
        refine ⟨by rw [hturns, hturn, hparity], ?_, ?_⟩
        · rw [hturn, hzero]
          exact hpos _
        · rw [hturns, hturn, hzero, List.length_cons]
          omega
      · have hv' : v = !switch need rest := by revert hv; cases v <;> cases switch need rest <;> decide
        have hshort : ¬ need v ≤ trail v (v :: rest) := by
          intro hle
          rw [switch, if_pos hle] at hturn
          exact hv hturn
        have hrun : trail (!switch need rest) (v :: rest) = trail (!switch need rest) rest + 1 := by
          rw [← hv', trail_cons_self]
        refine ⟨by rw [hturns, hturn, hparity], ?_, ?_⟩
        · rw [hturn, ← hv']
          exact Nat.lt_of_not_le hshort
        · rw [hturns, hturn, hrun, List.length_cons]
          omega
    · -- a turn: it uses up the run that made it
      have hreached : need v ≤ trail v (v :: rest) := by
        by_contra hshort
        rw [switch, if_neg hshort] at hturn
        exact hturn rfl
      have hnew : switch need (v :: rest) = v := if_pos hreached
      have hv : v = !switch need rest := by
        rw [hnew] at hturn
        revert hturn
        cases v <;> cases switch need rest <;> decide
      have hturns : turns need (v :: rest) = turns need rest + 1 := by rw [turns, if_neg hturn]
      have hodd : v = (turns need rest % 2 == 1) := by
        rw [hv, hparity]
        rcases Nat.mod_two_eq_zero_or_one (turns need rest) with h | h <;> rw [h] <;> rfl
      have hrun : trail v (v :: rest) = trail (!switch need rest) rest + 1 := by rw [trail_cons_self, hv]
      refine ⟨?_, ?_, ?_⟩
      · rw [hnew, hturns, hodd]
        rcases Nat.mod_two_eq_zero_or_one (turns need rest) with h | h
        · rw [h, show (turns need rest + 1) % 2 = 1 by omega]; rfl
        · rw [h, show (turns need rest + 1) % 2 = 0 by omega]; rfl
      · rw [hnew, hother]
        exact hpos _
      · rw [hnew, hother, hturns, cost, ← hodd, List.length_cons]
        omega

/-- A full run of entries turns the switch, wherever it was. -/
theorem switch_of_trail (hpos : ∀ v, 1 ≤ need v) {entries : List Bool} {v : Bool} (h : need v ≤ trail v entries) :
    switch need entries = v := by
  have hbelow := (damped hpos entries).below
  by_contra hv
  have hv' : (!switch need entries) = v := by revert hv; cases v <;> cases switch need entries <;> decide
  rw [hv'] at hbelow
  exact absurd h (Nat.not_le_of_lt hbelow)

/-- Until there is a full run against it the switch stays. -/
theorem switch_stays {v x : Bool} {rest : List Bool} (h : switch need rest = v)
    (hshort : trail (!v) (x :: rest) < need (!v)) : switch need (x :: rest) = v := by
  unfold switch
  split
  · rename_i hturn
    by_contra hx
    have hx' : x = !v := by revert hx; cases x <;> cases v <;> decide
    subst hx'
    exact absurd hturn (Nat.not_le_of_lt hshort)
  · exact h

end

end Gungho.Lib
