/-
Runs of a deterministic machine: one step reads an input, emits an output and moves to the next
state. An interleaving of concurrent calls is a run as well, its inputs being the scheduler's
choices. The rules carry an invariant, a property of the outputs or a simulation from one step to
every run; the hypotheses of a run that hold step by step enter as `Along`.
-/
import Mathlib.Data.List.Basic

namespace Gungho.Lib

variable {σ τ ι κ ο π : Type*}

/-- The outputs of `step` over the inputs, in order, and the last state. -/
def run (step : σ → ι → ο × σ) (s : σ) : List ι → List ο × σ
  | [] => ([], s)
  | i :: is => ((step s i).1 :: (run step (step s i).2 is).1, (run step (step s i).2 is).2)

/-- Every step of the run is taken from a state and on an input that satisfy `C`. -/
def Along (step : σ → ι → ο × σ) (C : σ → ι → Prop) (s : σ) : List ι → Prop
  | [] => True
  | i :: is => C s i ∧ Along step C (step s i).2 is

instance decidableAlong (step : σ → ι → ο × σ) (C : σ → ι → Prop) [∀ s i, Decidable (C s i)] :
    ∀ (s : σ) (is : List ι), Decidable (Along step C s is)
  | _, [] => .isTrue trivial
  | s, i :: is =>
    have := decidableAlong step C (step s i).2 is
    inferInstanceAs (Decidable (C s i ∧ Along step C (step s i).2 is))

variable {step : σ → ι → ο × σ}

@[simp] theorem run_nil (s : σ) : run step s [] = ([], s) := rfl

theorem run_cons (s : σ) (i : ι) (is : List ι) :
    run step s (i :: is) = ((step s i).1 :: (run step (step s i).2 is).1, (run step (step s i).2 is).2) := rfl

/-- A run over `is ++ js` is the run over `is` followed by the run over `js`. -/
theorem run_append (s : σ) (is js : List ι) :
    run step s (is ++ js) =
      ((run step s is).1 ++ (run step (run step s is).2 js).1, (run step (run step s is).2 js).2) := by
  induction is generalizing s with
  | nil => rfl
  | cons i is ih => simp only [List.cons_append, run_cons, ih]

theorem take_outputs (s : σ) (is : List ι) (k : ℕ) : (run step s is).1.take k = (run step s (is.take k)).1 := by
  induction is generalizing s k with
  | nil => simp
  | cons i is ih =>
    cases k with
    | zero => rfl
    | succ k => rw [List.take_succ_cons, run_cons, run_cons, List.take_succ_cons, ih]

theorem drop_outputs (s : σ) (is : List ι) (n : ℕ) :
    (run step s is).1.drop n = (run step (run step s (is.take n)).2 (is.drop n)).1 := by
  induction is generalizing s n with
  | nil => simp
  | cons i is ih =>
    cases n with
    | zero => rfl
    | succ n =>
      rw [List.take_succ_cons, List.drop_succ_cons, run_cons, run_cons, List.drop_succ_cons, ih]

theorem along_cons (C : σ → ι → Prop) (s : σ) (i : ι) (is : List ι) :
    Along step C s (i :: is) ↔ C s i ∧ Along step C (step s i).2 is := Iff.rfl

/-! ## The rules -/

section Rules

variable {C : σ → ι → Prop} (I : σ → Prop)

/-- An invariant kept by every step that satisfies `C` holds after the run. -/
theorem inv_run (hstep : ∀ s i, I s → C s i → I (step s i).2) :
    ∀ (is : List ι) (s : σ), I s → Along step C s is → I (run step s is).2
  | [], _, hs, _ => hs
  | i :: is, s, hs, hc => inv_run hstep is (step s i).2 (hstep s i hs hc.1) hc.2

/-- A condition that holds at every invariant state holds along the run. -/
theorem along_of_inv {D : σ → ι → Prop} (hstep : ∀ s i, I s → C s i → I (step s i).2)
    (hD : ∀ s i, I s → C s i → D s i) :
    ∀ (is : List ι) (s : σ), I s → Along step C s is → Along step D s is
  | [], _, _, _ => trivial
  | i :: is, s, hs, hc =>
    ⟨hD s i hs hc.1, along_of_inv hstep hD is (step s i).2 (hstep s i hs hc.1) hc.2⟩

theorem along_of_forall {D : ι → Prop} :
    ∀ (is : List ι) (s : σ), (∀ i ∈ is, D i) → Along step (fun _ => D) s is
  | [], _, _ => trivial
  | i :: is, s, h => ⟨h i (by simp), along_of_forall is _ fun j hj => h j (List.mem_cons_of_mem _ hj)⟩

@[simp] theorem along_true : ∀ (is : List ι) (s : σ), Along step (fun _ _ => True) s is
  | [], _ => trivial
  | i :: is, s => ⟨trivial, along_true is (step s i).2⟩

/-- What every step from an invariant state emits, the whole run emits. -/
theorem outputs_run (P : ο → Prop) (hstep : ∀ s i, I s → C s i → P (step s i).1 ∧ I (step s i).2) :
    ∀ (is : List ι) (s : σ), I s → Along step C s is → ∀ o ∈ (run step s is).1, P o
  | [], _, _, _, _, ho => by simp at ho
  | i :: is, s, hs, hc, o, ho => by
    obtain ⟨hp, hi⟩ := hstep s i hs hc.1
    rcases List.mem_cons.1 ho with rfl | ho
    · exact hp
    · exact outputs_run P hstep is (step s i).2 hi hc.2 o ho

/-- Where a step's output is right exactly when its input satisfies `C`, the outputs of a run are all
right exactly when every input satisfies `C`: the first that does not shows in its own output. -/
theorem outputs_iff {P : ο → Prop} (hstep : ∀ s i, I s → (P (step s i).1 ↔ C s i))
    (hkeep : ∀ s i, I s → C s i → I (step s i).2) :
    ∀ (is : List ι) (s : σ), I s → ((∀ o ∈ (run step s is).1, P o) ↔ Along step C s is)
  | [], _, _ => by simp [Along]
  | i :: is, s, hs => by
    rw [run_cons, List.forall_mem_cons, hstep s i hs, along_cons]
    exact and_congr_right fun hc => outputs_iff hstep hkeep is (step s i).2 (hkeep s i hs hc)

/-- A violation of `C` that leaves a mark on the state for good: a run that ends unmarked met `C`. -/
theorem along_of_unmarked (M : σ → Prop) (hmark : ∀ s i, ¬ C s i → M (step s i).2)
    (hstay : ∀ s i, M s → M (step s i).2) :
    ∀ (is : List ι) (s : σ), ¬ M (run step s is).2 → Along step C s is
  | [], _, _ => trivial
  | i :: is, s, h => by
    refine ⟨?_, along_of_unmarked M hmark hstay is (step s i).2 h⟩
    by_contra hc
    exact h (inv_run M (fun s i hm _ => hstay s i hm) is _ (hmark s i hc) (along_true is _))

/-- Lockstep simulation: two machines whose related states step to related states with related
outputs have related runs. `f` translates the inputs. -/
theorem sim_run {step' : τ → κ → π × τ} {R : σ → τ → Prop} {O : ο → π → Prop} {f : ι → κ}
    (hstep : ∀ s t i, R s t → C s i → O (step s i).1 (step' t (f i)).1 ∧ R (step s i).2 (step' t (f i)).2) :
    ∀ (is : List ι) (s : σ) (t : τ), R s t → Along step C s is →
      List.Forall₂ O (run step s is).1 (run step' t (is.map f)).1 ∧
        R (run step s is).2 (run step' t (is.map f)).2
  | [], _, _, hr, _ => ⟨.nil, hr⟩
  | i :: is, s, t, hr, hc => by
    obtain ⟨ho, hr'⟩ := hstep s t i hr hc.1
    obtain ⟨hos, hrs⟩ := sim_run hstep is (step s i).2 (step' t (f i)).2 hr' hc.2
    exact ⟨.cons ho hos, hrs⟩

/-- A rank that no input raises and those of a kind lower comes to 0 within as many inputs of the kind. -/
theorem comes_down {rank : σ → ℕ} {own : ι → Bool} (hstep : ∀ s i, I s → C s i → rank s ≠ 0 → I (step s i).2)
    (hfall : ∀ s i, I s → C s i → rank s ≠ 0 → rank (step s i).2 + (own i).toNat ≤ rank s) :
    ∀ (is : List ι) (s : σ), I s → Along step C s is → rank s ≤ is.countP own →
      ∃ pre post, is = pre ++ post ∧ I (run step s pre).2 ∧ rank (run step s pre).2 = 0
  | [], s, hs, _, hrank => ⟨[], [], rfl, hs, Nat.le_zero.1 hrank⟩
  | i :: is, s, hs, hc, hrank => by
    by_cases hzero : rank s = 0
    · exact ⟨[], i :: is, rfl, hs, hzero⟩
    · have hfalls := hfall s i hs hc.1 hzero
      have hcount : (i :: is).countP own = is.countP own + (own i).toNat := by
        rw [List.countP_cons]
        cases own i <;> rfl
      have hnext : rank (step s i).2 ≤ is.countP own := by omega
      obtain ⟨pre, post, rfl, hI, hdown⟩ :=
        comes_down hstep hfall is (step s i).2 (hstep s i hs hc.1 hzero) hc.2 hnext
      exact ⟨i :: pre, post, rfl, hI, hdown⟩

end Rules

/-! ## Items that change only what they own -/

/-- A fold whose items each change their own part of the state, and no other part: processed in any
order and once each, every item has changed its own part once. -/
theorem foldl_own (own : ι → σ → π) (upd : ι → π → π) {f : σ → ι → σ} {I : σ → Prop} {D : ι → Prop}
    (hinv : ∀ s i, D i → I s → I (f s i)) (hself : ∀ s i, D i → I s → own i (f s i) = upd i (own i s))
    (hother : ∀ s i j, D i → D j → I s → i ≠ j → own j (f s i) = own j s) {j : ι} (hj : D j) :
    ∀ (is : List ι) (s : σ), is.Nodup → (∀ i ∈ is, D i) → I s →
      (j ∈ is → own j (is.foldl f s) = upd j (own j s)) ∧ (j ∉ is → own j (is.foldl f s) = own j s)
  | [], _, _, _, _ => ⟨fun h => by simp at h, fun _ => rfl⟩
  | i :: is, s, hn, hD, hs => by
    rw [List.nodup_cons] at hn
    have hi := hD i (by simp)
    obtain ⟨hin, hout⟩ := foldl_own own upd hinv hself hother hj is (f s i) hn.2
      (fun k hk => hD k (List.mem_cons_of_mem i hk)) (hinv s i hi hs)
    rw [List.foldl_cons]
    by_cases hij : i = j
    · subst hij
      exact ⟨fun _ => (hout hn.1).trans (hself s i hi hs), fun h => absurd (by simp) h⟩
    · have hkeep := hother s i j hi hj hs hij
      rw [List.mem_cons]
      refine ⟨fun h => ?_, fun h => ?_⟩
      · rw [hin (h.resolve_left (Ne.symm hij)), hkeep]
      · rw [hout (fun hm => h (.inr hm)), hkeep]

end Gungho.Lib
