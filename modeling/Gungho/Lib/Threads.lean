/-
Threads over a shared state: the scheduler lets the surroundings act, starts a thread, or lets one
thread take its next atomic step. Any number of threads in any interleaving is a run of `interleave`.
Three rules reduce a run to the steps of single threads: an invariant that each thread keeps for itself
and for the others, an account of the shared state to which every thread contributes its share, and a
relation of the shared state to all threads together.
-/
import Gungho.Lib.Run
import Mathlib.Algebra.BigOperators.Group.List.Basic
import Mathlib.Algebra.Order.Ring.Nat

namespace Gungho.Lib

structure Threads (σ τ : Type*) where
  shared : σ
  threads : List τ

/-- The scheduler's choices. A thread may need an input of its own for its step. -/
inductive Sched (ε ρ ι : Type*) where
  | outside (e : ε)
  | spawn (r : ρ)
  | step (thread : ℕ) (i : ι)
  deriving DecidableEq, Repr

variable {σ τ ε ρ ι G : Type*}

section

variable (env : σ → ε → σ) (init : ρ → τ) (next : σ → τ → ι → σ × τ)

/-- A step of a thread that is not there changes nothing. -/
def interleave (s : Threads σ τ) : Sched ε ρ ι → Unit × Threads σ τ
  | .outside e => ((), ⟨env s.shared e, s.threads⟩)
  | .spawn r => ((), ⟨s.shared, s.threads ++ [init r]⟩)
  | .step k i =>
    match s.threads[k]? with
    | none => ((), s)
    | some t => ((), ⟨(next s.shared t i).1, s.threads.set k (next s.shared t i).2⟩)

end

/-- The threads' steps meet `C`. -/
def StepCond (C : σ → τ → ι → Prop) (s : Threads σ τ) : Sched ε ρ ι → Prop
  | .step k i => ∀ t, s.threads[k]? = some t → C s.shared t i
  | _ => True

instance decidableStepCond (C : σ → τ → ι → Prop) [∀ s t i, Decidable (C s t i)] (s : Threads σ τ) :
    ∀ c : Sched ε ρ ι, Decidable (StepCond C s c)
  | .outside _ => .isTrue trivial
  | .spawn _ => .isTrue trivial
  | .step k i =>
    match ht : s.threads[k]? with
    | none => .isTrue fun t h => by rw [ht] at h; cases h
    | some t => decidable_of_iff (C s.shared t i) ⟨fun h u hu => by rw [ht] at hu; cases hu; exact h, fun h => h t ht⟩

variable {env : σ → ε → σ} {init : ρ → τ} {next : σ → τ → ι → σ × τ}

/-- The threads beside one that takes a step are there before and after it. -/
theorem mem_middle {pre post : List τ} {t t' u : τ} (h : u ∈ pre ++ t' :: post) : u = t' ∨ u ∈ pre ++ t :: post := by
  simp only [List.mem_append, List.mem_cons] at h ⊢
  tauto

/-- What a choice of the scheduler can do. -/
theorem interleave_cases (s : Threads σ τ) (c : Sched ε ρ ι) :
    (∃ e, c = .outside e ∧ (interleave env init next s c).2 = ⟨env s.shared e, s.threads⟩) ∨
    (∃ r, c = .spawn r ∧ (interleave env init next s c).2 = ⟨s.shared, s.threads ++ [init r]⟩) ∨
    (∃ k i, c = .step k i ∧ s.threads[k]? = none ∧ (interleave env init next s c).2 = s) ∨
    ∃ pre t post i, c = .step pre.length i ∧ s.threads = pre ++ t :: post ∧
      (interleave env init next s c).2 = ⟨(next s.shared t i).1, pre ++ (next s.shared t i).2 :: post⟩ := by
  cases c with
  | outside e => exact .inl ⟨e, rfl, rfl⟩
  | spawn r => exact .inr (.inl ⟨r, rfl, rfl⟩)
  | step k i =>
    rcases ht : s.threads[k]? with _ | t
    · refine .inr (.inr (.inl ⟨k, i, rfl, ht, ?_⟩))
      simp only [interleave, ht]
    · obtain ⟨hk, hget⟩ := List.getElem?_eq_some_iff.1 ht
      have hlen : (s.threads.take k).length = k := by rw [List.length_take]; omega
      refine .inr (.inr (.inr ⟨s.threads.take k, t, s.threads.drop (k + 1), i, by rw [hlen], ?_, ?_⟩))
      · rw [← hget, List.getElem_cons_drop, List.take_append_drop]
      · simp only [interleave, ht, List.set_eq_take_cons_drop _ hk]

theorem stepCond_split {C : σ → τ → ι → Prop} {s : Threads σ τ} {pre post : List τ} {t : τ} {i : ι}
    (h : s.threads = pre ++ t :: post) :
    StepCond C s (.step pre.length i : Sched ε ρ ι) ↔ C s.shared t i := by
  have ht : s.threads[pre.length]? = some t := by rw [h]; simp
  exact ⟨fun hc => hc t ht, fun hc u hu => by rw [ht] at hu; cases hu; exact hc⟩

theorem along_free (choices : List (Sched ε ρ ι)) (s : Threads σ τ) :
    Along (interleave env init next) (StepCond fun _ _ _ => True) s choices := by
  have hstep : ∀ (s : Threads σ τ) (c : Sched ε ρ ι), StepCond (fun _ _ _ => True) s c := fun s c => by
    cases c <;> simp [StepCond]
  exact along_of_inv (fun _ => True) (fun _ _ _ _ => trivial) (fun s c _ _ => hstep s c) choices s trivial
    (along_true choices s)

/-! ## Invariants thread by thread -/

/-- `I` holds of the shared state and `L` of each thread beside it: the surroundings keep both, a
started thread has `L`, and a step that meets `C` keeps `L` for its own thread and for any other. -/
structure Modular (env : σ → ε → σ) (init : ρ → τ) (next : σ → τ → ι → σ × τ) (I : σ → Prop)
    (L : σ → τ → Prop) (C : σ → τ → ι → Prop) : Prop where
  env : ∀ s e, I s → I (env s e) ∧ ∀ t, L s t → L (env s e) t
  spawn : ∀ s r, I s → L s (init r)
  self : ∀ s t i, I s → L s t → C s t i → I (next s t i).1 ∧ L (next s t i).1 (next s t i).2
  other : ∀ s t i u, I s → L s t → L s u → C s t i → L (next s t i).1 u

/-- What each thread keeps for itself beside the invariant. -/
theorem Modular.also {I : σ → Prop} {L : σ → τ → Prop} {C : σ → τ → ι → Prop} (m : Modular env init next I L C)
    {P : τ → Prop} (hspawn : ∀ r, P (init r)) (hself : ∀ s t i, I s → L s t → C s t i → P t → P (next s t i).2) :
    Modular env init next I (fun s t => L s t ∧ P t) C where
  env s e h := ⟨(m.env s e h).1, fun t ht => ⟨(m.env s e h).2 t ht.1, ht.2⟩⟩
  spawn s r h := ⟨m.spawn s r h, hspawn r⟩
  self s t i h ht hc := by
    obtain ⟨hI, hL⟩ := m.self s t i h ht.1 hc
    exact ⟨hI, hL, hself s t i h ht.1 hc ht.2⟩
  other s t i u h ht hu hc := ⟨m.other s t i u h ht.1 hu.1 hc, hu.2⟩

/-- The invariant holds all the more where the steps meet more than `C`. -/
theorem Modular.under {I : σ → Prop} {L : σ → τ → Prop} {C C' : σ → τ → ι → Prop} (m : Modular env init next I L C)
    (h : ∀ s t i, C' s t i → C s t i) : Modular env init next I L C' where
  env := m.env
  spawn := m.spawn
  self s t i hI ht hc := m.self s t i hI ht (h s t i hc)
  other s t i u hI ht hu hc := m.other s t i u hI ht hu (h s t i hc)

def Holds (I : σ → Prop) (L : σ → τ → Prop) (s : Threads σ τ) : Prop := I s.shared ∧ ∀ t ∈ s.threads, L s.shared t

section

variable {I : σ → Prop} {L : σ → τ → Prop} {C : σ → τ → ι → Prop} {s : Threads σ τ}

theorem holds_interleave (m : Modular env init next I L C) (h : Holds I L s) {c : Sched ε ρ ι} (hc : StepCond C s c) :
    Holds I L (interleave env init next s c).2 := by
  obtain ⟨hI, hL⟩ := h
  rcases interleave_cases s c with ⟨e, rfl, hs⟩ | ⟨r, rfl, hs⟩ | ⟨k, i, rfl, -, hs⟩ | ⟨pre, t, post, i, rfl, ht, hs⟩
  · rw [hs]
    exact ⟨(m.env s.shared e hI).1, fun t ht => (m.env s.shared e hI).2 t (hL t ht)⟩
  · rw [hs]
    refine ⟨hI, fun t ht => ?_⟩
    rcases List.mem_append.1 ht with ht | ht
    · exact hL t ht
    · rw [List.mem_singleton.1 ht]
      exact m.spawn s.shared r hI
  · rw [hs]
    exact ⟨hI, hL⟩
  · have hC := (stepCond_split ht).1 hc
    rw [ht] at hL
    have hLt := hL t (by simp)
    obtain ⟨hI', hLt'⟩ := m.self s.shared t i hI hLt hC
    rw [hs]
    refine ⟨hI', fun u hu => ?_⟩
    rcases mem_middle hu with rfl | hu
    · exact hLt'
    · exact m.other s.shared t i u hI hLt (hL u hu) hC

/-- In every state of a run whose steps meet `C` the shared state has `I` and every thread has `L`. -/
theorem holds_run (m : Modular env init next I L C) (choices : List (Sched ε ρ ι)) (h : Holds I L s)
    (hc : Along (interleave env init next) (StepCond C) s choices) :
    Holds I L (run (interleave env init next) s choices).2 :=
  inv_run (Holds I L) (fun _ _ hs hc => holds_interleave m hs hc) choices s h hc

end

/-- A thread is marked by the step that violates `C`, by no other, and for good: no thread of the last
state is marked exactly when every step met `C`. -/
theorem along_iff_unmarked {C : σ → τ → ι → Prop} (M : τ → Prop) (hspawn : ∀ r, ¬ M (init r))
    (hmark : ∀ s t i, M (next s t i).2 ↔ M t ∨ ¬ C s t i) (choices : List (Sched ε ρ ι)) {s : Threads σ τ}
    (hs : ∀ t ∈ s.threads, ¬ M t) :
    (∀ t ∈ (run (interleave env init next) s choices).2.threads, ¬ M t) ↔
      Along (interleave env init next) (StepCond C) s choices := by
  refine ⟨fun h => ?_, fun h => ?_⟩
  · let Marked : Threads σ τ → Prop := fun s => ∃ t ∈ s.threads, M t
    refine along_of_unmarked Marked (fun s c hc => ?_) (fun s c hm => ?_) choices s fun ⟨t, ht, hm⟩ => h t ht hm
    · rcases interleave_cases s c with ⟨e, rfl, -⟩ | ⟨r, rfl, -⟩ | ⟨k, i, rfl, hnone, -⟩ |
        ⟨pre, t, post, i, rfl, ht, hs⟩
      · exact absurd trivial hc
      · exact absurd trivial hc
      · exact absurd (fun t ht => by rw [hnone] at ht; cases ht) hc
      · rw [stepCond_split ht] at hc
        rw [hs]
        exact ⟨_, by simp, (hmark s.shared t i).2 (.inr hc)⟩
    · obtain ⟨u, hu, hm⟩ := hm
      rcases interleave_cases s c with ⟨e, rfl, hs⟩ | ⟨r, rfl, hs⟩ | ⟨k, i, rfl, -, hs⟩ |
        ⟨pre, t, post, i, rfl, ht, hs⟩ <;> rw [hs]
      · exact ⟨u, hu, hm⟩
      · exact ⟨u, List.mem_append_left _ hu, hm⟩
      · exact ⟨u, hu, hm⟩
      · rw [ht] at hu
        rcases mem_middle hu with rfl | hu
        · exact ⟨(next s.shared u i).2, by simp, (hmark s.shared u i).2 (.inl hm)⟩
        · exact ⟨u, hu, hm⟩
  · have m : Modular env init next (fun _ => True) (fun _ t => ¬ M t) C :=
      ⟨fun _ _ _ => ⟨trivial, fun _ h => h⟩, fun _ r _ => hspawn r,
        fun s t i _ ht hc => ⟨trivial, fun hm => ((hmark s t i).1 hm).elim ht (not_not.2 hc)⟩,
        fun _ _ _ _ _ _ hu _ => hu⟩
    exact (holds_run m choices ⟨trivial, hs⟩ h).2

/-- A thread stays in its place, and only its own steps change it. -/
theorem interleave_at {s : Threads σ τ} {k : ℕ} {t : τ} (ht : s.threads[k]? = some t) (c : Sched ε ρ ι) :
    ∃ u, (interleave env init next s c).2.threads[k]? = some u ∧
      (u = t ∧ (∀ i, c ≠ .step k i) ∨ ∃ i, c = .step k i ∧ u = (next s.shared t i).2) := by
  have hk : k < s.threads.length := (List.getElem?_eq_some_iff.1 ht).1
  cases c with
  | outside e => exact ⟨t, ht, .inl ⟨rfl, fun i h => by cases h⟩⟩
  | spawn r =>
    refine ⟨t, ?_, .inl ⟨rfl, fun i h => by cases h⟩⟩
    simp only [interleave, List.getElem?_append_left hk, ht]
  | step j i =>
    by_cases hjk : j = k
    · subst hjk
      refine ⟨_, ?_, .inr ⟨i, rfl, rfl⟩⟩
      simp only [interleave, ht, List.getElem?_set_self hk]
    · refine ⟨t, ?_, .inl ⟨rfl, fun i' h => hjk (by cases h; rfl)⟩⟩
      rcases hj : s.threads[j]? with _ | t'
      · simp only [interleave, hj, ht]
      · simp only [interleave, hj, List.getElem?_set_ne hjk, ht]

/-- What a thread keeps in its own steps, while the shared state has `I`, it keeps in every run. -/
theorem kept_at {I : σ → Prop} {P : τ → Prop} (henv : ∀ s e, I s → I (env s e)) (hI : ∀ s t i, I s → I (next s t i).1)
    (hstep : ∀ s t i, I s → P t → P (next s t i).2) (choices : List (Sched ε ρ ι)) {s : Threads σ τ} (hs : I s.shared)
    {k : ℕ} {t : τ} (ht : s.threads[k]? = some t) (hP : P t) :
    ∃ u, (run (interleave env init next) s choices).2.threads[k]? = some u ∧ P u := by
  have m : Modular env init next I (fun _ _ => True) fun _ _ _ => True :=
    ⟨fun s e h => ⟨henv s e h, fun _ _ => trivial⟩, fun _ _ _ => trivial, fun s t i h _ _ => ⟨hI s t i h, trivial⟩,
      fun _ _ _ _ _ _ _ _ => trivial⟩
  have hkeep : ∀ (s : Threads σ τ) (c : Sched ε ρ ι),
      (Holds I (fun _ _ => True) s ∧ ∃ t, s.threads[k]? = some t ∧ P t) →
      StepCond (fun _ _ _ => True) s c → Holds I (fun _ _ => True) (interleave env init next s c).2 ∧
        ∃ u, (interleave env init next s c).2.threads[k]? = some u ∧ P u := by
    rintro s c ⟨h, t, ht, hP⟩ hc
    refine ⟨holds_interleave m h hc, ?_⟩
    obtain ⟨u, hu, ⟨rfl, -⟩ | ⟨i, -, rfl⟩⟩ := interleave_at ht c
    · exact ⟨u, hu, hP⟩
    · exact ⟨_, hu, hstep s.shared t i h.1 hP⟩
  exact (inv_run _ hkeep choices s ⟨⟨hs, fun _ _ => trivial⟩, t, ht, hP⟩ (along_free choices s)).2

/-- What a thread has after a step and keeps in its later ones it has in every run from there. -/
theorem kept_from {I : σ → Prop} {P : τ → Prop} (henv : ∀ s e, I s → I (env s e)) (hI : ∀ s t i, I s → I (next s t i).1)
    (hstep : ∀ s t i, I s → P t → P (next s t i).2) {s : Threads σ τ} (hs : I s.shared) {k : ℕ} {t : τ}
    (ht : s.threads[k]? = some t) {i : ι} (hP : P (next s.shared t i).2) (choices : List (Sched ε ρ ι)) :
    ∃ u, (run (interleave env init next) s (.step k i :: choices)).2.threads[k]? = some u ∧ P u := by
  have hk : k < s.threads.length := (List.getElem?_eq_some_iff.1 ht).1
  have hfirst : (interleave env init next s (.step k i : Sched ε ρ ι)).2 =
      ⟨(next s.shared t i).1, s.threads.set k (next s.shared t i).2⟩ := by
    simp only [interleave, ht]
  rw [run_cons, hfirst]
  exact kept_at henv hI hstep choices (hI s.shared t i hs) (List.getElem?_set_self hk) hP

/-- A step of one thread with an input of a kind. -/
def takes (own : ι → Bool) (k : ℕ) : Sched ε ρ ι → Bool
  | .step j i => j == k && own i
  | _ => false

/-- A thread whose rank its steps do not raise and those of a kind lower comes to rank 0 within as many such steps of
its own, whatever the others do between them. -/
theorem comes_down_at {I : σ → Prop} {L : σ → τ → Prop} (m : Modular env init next I L fun _ _ _ => True) {rank : τ → ℕ}
    {own : ι → Bool} (hfall : ∀ s t i, I s → L s t → rank t ≠ 0 → rank (next s t i).2 + (own i).toNat ≤ rank t)
    (choices : List (Sched ε ρ ι)) {s : Threads σ τ} (h : Holds I L s) {k : ℕ} {t : τ} (ht : s.threads[k]? = some t)
    (hrank : rank t ≤ choices.countP (takes own k)) :
    ∃ pre post, choices = pre ++ post ∧
      ∃ u, (run (interleave env init next) s pre).2.threads[k]? = some u ∧ rank u = 0 := by
  let rankAt : Threads σ τ → ℕ := fun s => (s.threads[k]?).elim 0 rank
  let There : Threads σ τ → Prop := fun s => Holds I L s ∧ ∃ t, s.threads[k]? = some t
  have hstep : ∀ (s : Threads σ τ) (c : Sched ε ρ ι), There s → StepCond (fun _ _ _ => True) s c → rankAt s ≠ 0 →
      There (interleave env init next s c).2 := by
    rintro s c ⟨h, t, ht⟩ hc -
    obtain ⟨u, hu, -⟩ := interleave_at ht c
    exact ⟨holds_interleave m h hc, u, hu⟩
  have hfalls : ∀ (s : Threads σ τ) (c : Sched ε ρ ι), There s → StepCond (fun _ _ _ => True) s c → rankAt s ≠ 0 →
      rankAt (interleave env init next s c).2 + (takes own k c).toNat ≤ rankAt s := by
    rintro s c ⟨⟨hI, hL⟩, t, ht⟩ - hne
    obtain ⟨u, hu, hcase⟩ : ∃ u, (interleave env init next s c).2.threads[k]? = some u ∧
        (u = t ∧ (∀ i, c ≠ .step k i) ∨ ∃ i, c = .step k i ∧ u = (next s.shared t i).2) := interleave_at ht c
    simp only [rankAt, ht, hu, Option.elim_some] at hne ⊢
    rcases hcase with ⟨rfl, hother⟩ | ⟨i, rfl, rfl⟩
    · have hnot : takes own k c = false := by
        cases c with
        | step j i =>
          have hjk : j ≠ k := fun h => hother i (by rw [h])
          simp [takes, hjk]
        | _ => rfl
      rw [hnot]
      exact Nat.le_refl _
    · have hown : takes own k (.step k i : Sched ε ρ ι) = own i := by simp [takes]
      rw [hown]
      exact hfall s.shared t i hI (hL t (List.mem_of_getElem? ht)) hne
  have hrank : rankAt s ≤ choices.countP (takes own k) := by
    simp only [rankAt, ht, Option.elim_some]
    exact hrank
  obtain ⟨pre, post, rfl, ⟨-, u, hu⟩, hdown⟩ :=
    comes_down There hstep hfalls choices s ⟨h, t, ht⟩ (along_free choices s) hrank
  simp only [rankAt, hu, Option.elim_some] at hdown
  exact ⟨pre, post, rfl, u, hu, hdown⟩

/-- Where no step marks a thread and none starts marked, the threads marked in the end are among those marked at
first, each in its place. -/
theorem marked_before (D : σ → Prop) (M : τ → Prop) (hspawn : ∀ r, ¬ M (init r))
    (hstep : ∀ s t i, D s → M (next s t i).2 → M t) (choices : List (Sched ε ρ ι)) {s : Threads σ τ}
    (hc : Along (interleave env init next) (fun s _ => D s.shared) s choices) {k : ℕ} {u : τ}
    (hu : (run (interleave env init next) s choices).2.threads[k]? = some u) (hm : M u) :
    ∃ t, s.threads[k]? = some t ∧ M t := by
  induction choices generalizing s with
  | nil => exact ⟨u, hu, hm⟩
  | cons c choices ih =>
    obtain ⟨hD, hc⟩ := hc
    obtain ⟨t, ht, hmt⟩ := ih hc hu
    cases c with
    | outside e => exact ⟨t, ht, hmt⟩
    | spawn r =>
      have ht : (s.threads ++ [init r])[k]? = some t := ht
      rcases Nat.lt_or_ge k s.threads.length with hk | hk
      · rw [List.getElem?_append_left hk] at ht
        exact ⟨t, ht, hmt⟩
      · rw [List.getElem?_append_right hk] at ht
        have hinit := List.mem_singleton.1 (List.mem_of_getElem? ht)
        exact absurd (hinit ▸ hmt) (hspawn r)
    | step j i =>
      rcases hj : s.threads[j]? with _ | t'
      · simp only [interleave, hj] at ht
        exact ⟨t, ht, hmt⟩
      · simp only [interleave, hj, List.getElem?_set] at ht
        split at ht
        · rename_i hjk
          subst hjk
          split at ht
          · cases ht
            exact ⟨t', hj, hstep s.shared t' i hD hmt⟩
          · cases ht
        · exact ⟨t, ht, hmt⟩

/-- Entries marked in a list whose marked entries are marked in their place in another are no more than there. -/
theorem countP_le_of_marked {M : τ → Bool} {ts us : List τ}
    (h : ∀ (k : ℕ) (u : τ), us[k]? = some u → M u = true → ∃ t, ts[k]? = some t ∧ M t = true) :
    us.countP M ≤ ts.countP M := by
  induction us generalizing ts with
  | nil => exact Nat.zero_le _
  | cons u us ih =>
    have hrest : us.countP M ≤ ts.tail.countP M := ih fun k u hu hm => by
      obtain ⟨t, ht, hmt⟩ := h (k + 1) u hu hm
      exact ⟨t, by rw [List.getElem?_tail]; exact ht, hmt⟩
    rw [List.countP_cons]
    cases ts with
    | nil =>
      have hm : ¬ M u = true := fun hm => by
        obtain ⟨t, ht, -⟩ := h 0 u rfl hm
        cases ht
      rw [if_neg hm]
      exact hrest
    | cons t ts =>
      rw [List.countP_cons]
      have hfirst : M u = true → M t = true := fun hm => by
        obtain ⟨t', ht', hmt⟩ := h 0 u rfl hm
        cases ht'
        exact hmt
      have hrest : us.countP M ≤ ts.countP M := hrest
      split
      · rename_i hm
        rw [if_pos (hfirst hm)]
        omega
      · omega

/-! ## A thread on its own -/

section

variable {next : σ → τ → ι → σ × τ}

/-- The steps of one thread with no other step between them. -/
def solo (next : σ → τ → ι → σ × τ) (s : σ × τ) (inputs : List ι) : σ × τ := inputs.foldl (fun s i => next s.1 s.2 i) s

/-- The last thread takes its steps, the others wait. -/
theorem run_solo (env : σ → ε → σ) (init : ρ → τ) (s : σ) (ts : List τ) (t : τ) (inputs : List ι) :
    (run (interleave env init next) ⟨s, ts ++ [t]⟩ (inputs.map (.step ts.length))).2 =
      ⟨(solo next (s, t) inputs).1, ts ++ [(solo next (s, t) inputs).2]⟩ := by
  induction inputs generalizing s t with
  | nil => rfl
  | cons i inputs ih =>
    have hlast : (ts ++ [t])[ts.length]? = some t := by simp
    have hset : (ts ++ [t]).set ts.length (next s t i).2 = ts ++ [(next s t i).2] := by simp
    have hstep : (interleave env init next ⟨s, ts ++ [t]⟩ (.step ts.length i)).2 =
        ⟨(next s t i).1, ts ++ [(next s t i).2]⟩ := by
      simp only [interleave, hlast, hset]
    rw [List.map_cons, run_cons, hstep]
    exact ih (next s t i).1 (next s t i).2

/-- Threads that are started one after the other, each taking its steps before the next is started. -/
def inTurn : ℕ → List (ρ × List ι) → List (Sched ε ρ ι)
  | _, [] => []
  | k, (r, inputs) :: turns => .spawn r :: inputs.map (.step k) ++ inTurn (k + 1) turns

/-- What they leave and come to. -/
def soloInTurn (init : ρ → τ) (next : σ → τ → ι → σ × τ) : σ → List (ρ × List ι) → σ × List τ
  | s, [] => (s, [])
  | s, (r, inputs) :: turns =>
    let t := solo next (s, init r) inputs
    let rest := soloInTurn init next t.1 turns
    (rest.1, t.2 :: rest.2)

theorem run_inTurn (env : σ → ε → σ) (init : ρ → τ) (turns : List (ρ × List ι)) (s : σ) (ts : List τ) :
    (run (interleave env init next) ⟨s, ts⟩ (inTurn ts.length turns)).2 =
      ⟨(soloInTurn init next s turns).1, ts ++ (soloInTurn init next s turns).2⟩ := by
  induction turns generalizing s ts with
  | nil => rw [soloInTurn, List.append_nil]; rfl
  | cons turn turns ih =>
    obtain ⟨r, inputs⟩ := turn
    have hspawn : (interleave env init next ⟨s, ts⟩ (.spawn r : Sched ε ρ ι)).2 = ⟨s, ts ++ [init r]⟩ := rfl
    have hlast := ih (solo next (s, init r) inputs).1 (ts ++ [(solo next (s, init r) inputs).2])
    rw [List.length_append, List.length_singleton] at hlast
    rw [inTurn, List.cons_append, run_cons, hspawn, run_append, run_solo, hlast, List.append_assoc]
    rfl

end

/-! ## Shares -/

section

variable [AddCommMonoid G] {I : σ → Prop} {L : σ → τ → Prop} {C : σ → τ → ι → Prop} {R : σ → G → Prop} {share : τ → G}

/-- `R` relates the shared state to a total. The surroundings keep it, a started thread has no share,
and a thread's step turns its share into its new share beside whatever the others contribute. -/
structure Accounted (env : σ → ε → σ) (init : ρ → τ) (next : σ → τ → ι → σ × τ) (I : σ → Prop)
    (L : σ → τ → Prop) (C : σ → τ → ι → Prop) (R : σ → G → Prop) (share : τ → G) : Prop where
  env : ∀ s e x, R s x → R (env s e) x
  spawn : ∀ r, share (init r) = 0
  next : ∀ s t i x, I s → L s t → C s t i → R s (share t + x) → R (next s t i).1 (share (next s t i).2 + x)

def Balanced (R : σ → G → Prop) (share : τ → G) (s : Threads σ τ) : Prop := R s.shared (s.threads.map share).sum

theorem balanced_interleave (a : Accounted env init next I L C R share) {s : Threads σ τ} (h : Holds I L s)
    (hb : Balanced R share s) {c : Sched ε ρ ι} (hc : StepCond C s c) :
    Balanced R share (interleave env init next s c).2 := by
  unfold Balanced at hb ⊢
  rcases interleave_cases s c with ⟨e, rfl, hs⟩ | ⟨r, rfl, hs⟩ | ⟨k, i, rfl, -, hs⟩ | ⟨pre, t, post, i, rfl, ht, hs⟩
  · rw [hs]
    exact a.env s.shared e _ hb
  · rw [hs]
    simpa [a.spawn r] using hb
  · rw [hs]
    exact hb
  · have hsum : ∀ u : τ, ((pre ++ u :: post).map share).sum = share u + ((pre ++ post).map share).sum := fun u => by
      simp only [List.map_append, List.map_cons, List.sum_append, List.sum_cons, add_left_comm]
    have hL := h.2 t (by rw [ht]; simp)
    rw [hs, hsum]
    rw [ht, hsum] at hb
    exact a.next s.shared t i _ h.1 hL ((stepCond_split ht).1 hc) hb

/-- In every state of a run the shared state accounts for the sum of the threads' shares. -/
theorem balanced_run (m : Modular env init next I L C) (a : Accounted env init next I L C R share)
    {s : Threads σ τ} (h : Holds I L s) (hb : Balanced R share s) (choices : List (Sched ε ρ ι))
    (hc : Along (interleave env init next) (StepCond C) s choices) :
    Balanced R share (run (interleave env init next) s choices).2 :=
  (inv_run (fun s => Holds I L s ∧ Balanced R share s)
    (fun _ _ hs hc => ⟨holds_interleave m hs.1 hc, balanced_interleave a hs.1 hs.2 hc⟩) choices s ⟨h, hb⟩ hc).2

/-- Where no thread's step depends on an invariant. -/
theorem modular_true : Modular env init next (fun _ => True) (fun _ _ => True) C :=
  ⟨fun _ _ _ => ⟨trivial, fun _ _ => trivial⟩, fun _ _ _ => trivial, fun _ _ _ _ _ _ => ⟨trivial, trivial⟩,
    fun _ _ _ _ _ _ _ _ => trivial⟩

/-- The sum of shares of 1 is a number of threads. -/
theorem sum_indicator (p : τ → Bool) (ts : List τ) : (ts.map fun t => if p t then 1 else 0).sum = ts.countP p := by
  induction ts with
  | nil => rfl
  | cons t ts ih => rw [List.map_cons, List.sum_cons, ih, List.countP_cons, add_comm]

end

/-! ## The threads as a whole -/

section

variable {I : σ → Prop} {L : σ → τ → Prop} {C : σ → τ → ι → Prop} {P : σ → List τ → Prop}

/-- `P` relates the shared state to the threads as a whole: the surroundings, a started thread and a step of one thread
among the others keep it. -/
structure Collective (env : σ → ε → σ) (init : ρ → τ) (next : σ → τ → ι → σ × τ) (I : σ → Prop)
    (L : σ → τ → Prop) (C : σ → τ → ι → Prop) (P : σ → List τ → Prop) : Prop where
  env : ∀ s e ts, P s ts → P (env s e) ts
  spawn : ∀ s r ts, P s ts → P s (ts ++ [init r])
  next : ∀ s pre t post i, I s → L s t → C s t i → P s (pre ++ t :: post) →
    P (next s t i).1 (pre ++ (next s t i).2 :: post)

theorem collective_run (m : Modular env init next I L C) (a : Collective env init next I L C P) {s : Threads σ τ}
    (h : Holds I L s) (hp : P s.shared s.threads) (choices : List (Sched ε ρ ι))
    (hc : Along (interleave env init next) (StepCond C) s choices) :
    P (run (interleave env init next) s choices).2.shared (run (interleave env init next) s choices).2.threads := by
  refine (inv_run (fun s => Holds I L s ∧ P s.shared s.threads) (fun s c h hc => ?_) choices s ⟨h, hp⟩ hc).2
  obtain ⟨hholds, hp⟩ := h
  refine ⟨holds_interleave m hholds hc, ?_⟩
  rcases interleave_cases s c with ⟨e, rfl, hs⟩ | ⟨r, rfl, hs⟩ | ⟨k, i, rfl, -, hs⟩ | ⟨pre, t, post, i, rfl, ht, hs⟩
  · rw [hs]
    exact a.env s.shared e _ hp
  · rw [hs]
    exact a.spawn s.shared r _ hp
  · rw [hs]
    exact hp
  · rw [hs]
    rw [ht] at hp
    exact a.next s.shared pre t post i hholds.1 (hholds.2 t (by rw [ht]; simp)) ((stepCond_split ht).1 hc) hp

/-- A count over the threads, of which one takes a step. -/
theorem countP_split (q : τ → Bool) (pre post : List τ) (t : τ) :
    (pre ++ t :: post).countP q = pre.countP q + [t].countP q + post.countP q := by
  rw [List.append_cons, List.countP_append, List.countP_append]

theorem countP_singleton_le {q : τ → Bool} {t t' : τ} (h : q t = true → q t' = true) :
    [t].countP q ≤ [t'].countP q := by
  rw [List.countP_singleton, List.countP_singleton]
  split
  · rename_i ht
    rw [if_pos (h ht)]
  · exact Nat.zero_le _

end

/-! ## Two lists of threads -/

section

variable {υ : Type*} {R : τ → υ → Prop} {ts : List τ} {us : List υ}

/-- Threads that correspond one by one do so when one of them and its partner take a step. -/
theorem forall₂_middle {pre post : List τ} {t : τ} (h : List.Forall₂ R (pre ++ t :: post) us) :
    ∃ pre' u post', us = pre' ++ u :: post' ∧ R t u ∧
      ∀ t' u', R t' u' → List.Forall₂ R (pre ++ t' :: post) (pre' ++ u' :: post') := by
  induction pre generalizing us with
  | nil =>
    obtain ⟨u, post', hr, hpost, rfl⟩ := List.forall₂_cons_left_iff.1 h
    exact ⟨[], u, post', rfl, hr, fun t' u' hr' => .cons hr' hpost⟩
  | cons s pre ih =>
    obtain ⟨v, rest, hv, hrest, rfl⟩ := List.forall₂_cons_left_iff.1 h
    obtain ⟨pre', u, post', rfl, hr, hstep⟩ := ih hrest
    exact ⟨v :: pre', u, post', rfl, hr, fun t' u' hr' => .cons hv (hstep t' u' hr')⟩

theorem countP_le_of_forall₂ {p : τ → Bool} {q : υ → Bool} (h : List.Forall₂ R ts us)
    (hpq : ∀ t u, R t u → q u = true → p t = true) : us.countP q ≤ ts.countP p := by
  induction h with
  | nil => exact Nat.le_refl _
  | @cons t u ts us hr _ ih =>
    rw [List.countP_cons, List.countP_cons]
    have hshare := hpq t u hr
    split
    · rename_i hq
      rw [if_pos (hshare hq)]
      omega
    · omega

end

end Gungho.Lib
