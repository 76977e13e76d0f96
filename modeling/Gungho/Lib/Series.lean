/-
Values by label, as a metrics registry keeps them: the first use of a label creates its series at
the default value, every later use updates that series. A total over the series, whatever it counts
of each of them, changes by what the update adds to its own series.
-/
import Mathlib.Algebra.Order.Ring.Nat
import Mathlib.Data.List.Nodup

namespace Gungho.Lib

/-- A finite map from labels to values. -/
structure Series (κ ν : Type*) where
  entries : List (κ × ν)
  nodup : (entries.map (·.1)).Nodup

namespace Series

variable {κ ν : Type*}

def empty : Series κ ν := ⟨[], List.nodup_nil⟩

/-- The sum over the series of what `g` counts of each. -/
def total (s : Series κ ν) (g : κ → ν → ℕ) : ℕ := (s.entries.map fun e => g e.1 e.2).sum

variable [DecidableEq κ] [Inhabited ν]

/-- The entries with `f` applied at label `k`. -/
def updateEntries (k : κ) (f : ν → ν) : List (κ × ν) → List (κ × ν)
  | [] => [(k, f default)]
  | e :: es => if e.1 = k then (k, f e.2) :: es else e :: updateEntries k f es

theorem mem_keys_updateEntries (k : κ) (f : ν → ν) (es : List (κ × ν)) (j : κ) :
    j ∈ (updateEntries k f es).map (·.1) ↔ j = k ∨ j ∈ es.map (·.1) := by
  induction es with
  | nil => simp [updateEntries]
  | cons e es ih =>
    unfold updateEntries
    split
    · rename_i h
      subst h
      simp
    · rw [List.map_cons, List.map_cons, List.mem_cons, List.mem_cons, ih]
      exact or_left_comm

theorem nodup_updateEntries (k : κ) (f : ν → ν) {es : List (κ × ν)} (h : (es.map (·.1)).Nodup) :
    ((updateEntries k f es).map (·.1)).Nodup := by
  induction es with
  | nil => simp [updateEntries]
  | cons e es ih =>
    rw [List.map_cons, List.nodup_cons] at h
    unfold updateEntries
    split
    · rename_i he
      rw [List.map_cons, List.nodup_cons, ← he]
      exact h
    · rename_i he
      rw [List.map_cons, List.nodup_cons, mem_keys_updateEntries]
      exact ⟨not_or.2 ⟨he, h.1⟩, ih h.2⟩

/-- Updates the series of a label, or creates it. -/
def update (s : Series κ ν) (k : κ) (f : ν → ν) : Series κ ν :=
  ⟨updateEntries k f s.entries, nodup_updateEntries k f s.nodup⟩

def valueIn (k : κ) : List (κ × ν) → ν
  | [] => default
  | e :: es => if e.1 = k then e.2 else valueIn k es

theorem valueIn_of_not_mem {k : κ} {es : List (κ × ν)} (h : k ∉ es.map (·.1)) : valueIn k es = default := by
  induction es with
  | nil => rfl
  | cons e es ih =>
    rw [List.map_cons, List.mem_cons, not_or] at h
    exact (if_neg (Ne.symm h.1)).trans (ih h.2)

/-- The value of a label, the default when the label was never used. -/
def value (s : Series κ ν) (k : κ) : ν := valueIn k s.entries

theorem value_update (s : Series κ ν) (k : κ) (f : ν → ν) (j : κ) :
    (s.update k f).value j = if j = k then f (s.value k) else s.value j := by
  show valueIn j (updateEntries k f s.entries) = if j = k then f (valueIn k s.entries) else valueIn j s.entries
  induction s.entries with
  | nil =>
    by_cases hj : j = k
    · subst hj
      simp [updateEntries, valueIn]
    · simp [updateEntries, valueIn, hj, Ne.symm hj]
  | cons e es ih =>
    unfold updateEntries
    by_cases he : e.1 = k
    · rw [if_pos he]
      by_cases hj : j = k
      · subst hj
        simp [valueIn, he]
      · simp [valueIn, he, hj, Ne.symm hj]
    · rw [if_neg he]
      simp only [valueIn]
      rw [ih, if_neg he]
      by_cases hj : j = k
      · subst hj
        simp [he]
      · simp [hj]

/-- One update changes a total by what it adds to its own series. -/
theorem total_update (s : Series κ ν) (k : κ) (f : ν → ν) {g : κ → ν → ℕ} (hg : g k default = 0) :
    (s.update k f).total g + g k (s.value k) = s.total g + g k (f (s.value k)) := by
  show ((updateEntries k f s.entries).map fun e => g e.1 e.2).sum + g k (valueIn k s.entries) =
    (s.entries.map fun e => g e.1 e.2).sum + g k (f (valueIn k s.entries))
  induction s.entries with
  | nil => simp [updateEntries, valueIn, hg]
  | cons e es ih =>
    unfold updateEntries
    by_cases he : e.1 = k
    · subst he
      simp only [if_true, valueIn, List.map_cons, List.sum_cons]
      omega
    · simp only [if_neg he, valueIn, List.map_cons, List.sum_cons]
      omega

/-- The value of a counter is the sum of the one series that has its label. -/
theorem total_single (s : Series κ ℕ) (k : κ) : s.total (fun j n => if j = k then n else 0) = s.value k := by
  have hentries : ∀ es : List (κ × ℕ), (es.map (·.1)).Nodup →
      (es.map fun e => if e.1 = k then e.2 else 0).sum = valueIn k es := by
    intro es hes
    induction es with
    | nil => rfl
    | cons e es ih =>
      rw [List.map_cons, List.nodup_cons] at hes
      rw [List.map_cons, List.sum_cons, ih hes.2]
      by_cases he : e.1 = k
      · have hnone : valueIn k es = 0 := valueIn_of_not_mem (he ▸ hes.1)
        simp [valueIn, he, hnone]
      · simp [valueIn, he]
  exact hentries s.entries s.nodup

/-- Incrementing a counter adds one to the sum of any counters it belongs to. -/
theorem total_increment (s : Series κ ℕ) (k : κ) (p : κ → Bool) :
    (s.update k (· + 1)).total (fun j n => if p j then n else 0) =
      s.total (fun j n => if p j then n else 0) + if p k then 1 else 0 := by
  let g : κ → ℕ → ℕ := fun j n => if p j then n else 0
  have hupd : (s.update k (· + 1)).total g + g k (s.value k) = s.total g + g k (s.value k + 1) :=
    s.total_update k (· + 1) (ite_self 0)
  show (s.update k (· + 1)).total g = s.total g + if p k then 1 else 0
  by_cases hp : p k = true
  · have hg : ∀ n, g k n = n := fun n => if_pos hp
    rw [hg, hg] at hupd
    rw [if_pos hp]
    omega
  · have hg : ∀ n, g k n = 0 := fun n => if_neg hp
    rw [hg, hg] at hupd
    rw [if_neg hp]
    omega

end Series

end Gungho.Lib
