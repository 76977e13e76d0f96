/-
Threads that share an object whose operations are atomic. Each thread takes any number of steps, at
most one of which is an operation, whose output the thread returns. A journal beside the shared state
lists the outputs in the order of the operations: it is the run of the operations one after the other,
whatever the interleaving, and the threads return its entries, each entry once.
-/
import Gungho.Lib.Threads
import Mathlib.Algebra.Order.Group.Multiset

namespace Gungho.Lib

variable {σ τ ρ ι α ο : Type*}

/-! ## Operations one after the other -/

/-- The outputs of `k` operations in a row, and the object after them. -/
def operations (op : α → ο × α) (a : α) : ℕ → List ο × α
  | 0 => ([], a)
  | k + 1 => ((operations op a k).1 ++ [(op (operations op a k).2).1], (op (operations op a k).2).2)

@[simp] theorem length_operations (op : α → ο × α) (a : α) (k : ℕ) : (operations op a k).1.length = k := by
  induction k with
  | zero => rfl
  | succ k ih => rw [operations, List.length_append, ih, List.length_singleton]

/-! ## The journal -/

/-- A step of a thread; the output it returns, if it returns with this step, goes into the journal. -/
def journaled (next : σ → τ → ι → σ × τ) (ret : τ → Option ο) (s : σ × List ο) (t : τ) (i : ι) :
    (σ × List ο) × τ :=
  (((next s.1 t i).1, s.2 ++ if (ret t).isSome then [] else (ret (next s.1 t i).2).toList), (next s.1 t i).2)

/-- The threads of an atomic object `a`, which is the shared state `obj a`. A thread that has not
returned leaves the object alone and does not return, or does one operation and returns its output. -/
structure Atomic (init : ρ → τ) (next : σ → τ → ι → σ × τ) (ret : τ → Option ο) (L : τ → Prop) (obj : α → σ)
    (op : α → ο × α) : Prop where
  spawn : ∀ r, L (init r) ∧ ret (init r) = none
  keeps : ∀ a t i, L t → L (next (obj a) t i).2
  returned : ∀ a t i o, L t → ret t = some o → (next (obj a) t i).1 = obj a ∧ ret (next (obj a) t i).2 = some o
  running : ∀ a t i, L t → ret t = none →
    (next (obj a) t i).1 = obj a ∧ ret (next (obj a) t i).2 = none ∨
    (next (obj a) t i).1 = obj (op a).2 ∧ ret (next (obj a) t i).2 = some (op a).1

section

variable {init : ρ → τ} {next : σ → τ → ι → σ × τ} {ret : τ → Option ο} {L : τ → Prop} {obj : α → σ} {op : α → ο × α}

/-- The shared state and its journal after some operations on `a`. -/
def InOrder (obj : α → σ) (op : α → ο × α) (a : α) (s : σ × List ο) : Prop :=
  s = (obj (operations op a s.2.length).2, (operations op a s.2.length).1)

theorem inOrder_iff {a : α} {s : σ × List ο} :
    InOrder obj op a s ↔ ∃ k, s = (obj (operations op a k).2, (operations op a k).1) := by
  constructor
  · exact fun h => ⟨_, h⟩
  · rintro ⟨k, rfl⟩
    rw [InOrder, length_operations]

/-- A step of a thread that meets `L`: it returns nothing new, or it is the next operation. -/
theorem journaled_cases (h : Atomic init next ret L obj op) (b : α) (log : List ο) {t : τ} (i : ι) (ht : L t) :
    ((journaled next ret (obj b, log) t i).1 = (obj b, log) ∧
      ret (journaled next ret (obj b, log) t i).2 = ret t) ∨
    ((journaled next ret (obj b, log) t i).1 = (obj (op b).2, log ++ [(op b).1]) ∧ ret t = none ∧
      ret (journaled next ret (obj b, log) t i).2 = some (op b).1) := by
  unfold journaled
  rcases hr : ret t with _ | o
  · rcases h.running b t i ht hr with ⟨hobj, hret⟩ | ⟨hobj, hret⟩
    · exact .inl ⟨by simp [hobj, hret], hret⟩
    · exact .inr ⟨by simp [hobj, hret], rfl, hret⟩
  · obtain ⟨hobj, hret⟩ := h.returned b t i o ht hr
    exact .inl ⟨by simp [hobj], hret⟩

theorem modular_journaled (h : Atomic init next ret L obj op) (a : α) :
    Modular (fun _ (e : Empty) => e.elim) init (journaled next ret) (InOrder obj op a) (fun _ t => L t)
      (fun _ _ _ => True) := by
  refine ⟨fun _ e => e.elim, fun _ r _ => (h.spawn r).1, fun s t i hs ht _ => ?_, fun _ _ _ _ _ _ hu _ => hu⟩
  obtain ⟨k, rfl⟩ := inOrder_iff.1 hs
  refine ⟨?_, h.keeps _ t i ht⟩
  rcases journaled_cases h (operations op a k).2 (operations op a k).1 i ht with ⟨hshared, -⟩ | ⟨hshared, -⟩
  · rw [hshared]; exact hs
  · rw [hshared]; exact inOrder_iff.2 ⟨k + 1, rfl⟩

theorem inOrder_start (a : α) :
    Holds (InOrder obj op a) (fun _ t => L t) (⟨(obj a, []), []⟩ : Threads (σ × List ο) τ) :=
  ⟨inOrder_iff.2 ⟨0, rfl⟩, fun _ ht => by simp at ht⟩

/-- The journal of a run is the run of the operations one after the other. -/
theorem journal_run (h : Atomic init next ret L obj op) (a : α) (choices : List (Sched Empty ρ ι)) :
    let s := (run (interleave (fun _ (e : Empty) => e.elim) init (journaled next ret)) ⟨(obj a, []), []⟩ choices).2
    s.shared = (obj (operations op a s.shared.2.length).2, (operations op a s.shared.2.length).1) :=
  (holds_run (modular_journaled h a) choices (inOrder_start a) (along_free choices _)).1

/-- The threads that have returned have returned the entries of the journal, each entry once. -/
theorem returned_perm (h : Atomic init next ret L obj op) (a : α) (choices : List (Sched Empty ρ ι)) :
    let s := (run (interleave (fun _ (e : Empty) => e.elim) init (journaled next ret)) ⟨(obj a, []), []⟩ choices).2
    (s.threads.filterMap ret).Perm s.shared.2 := by
  have hshare : Accounted (fun _ (e : Empty) => e.elim) init (journaled next ret) (InOrder obj op a) (fun _ t => L t)
      (fun _ _ _ => True) (fun s (total : Multiset ο) => (s.2 : Multiset ο) = total)
      (fun t => ((ret t).toList : Multiset ο)) := by
    refine ⟨fun _ e => e.elim, fun r => by simp [(h.spawn r).2], fun s t i x hs ht _ hx => ?_⟩
    obtain ⟨k, rfl⟩ := inOrder_iff.1 hs
    rcases journaled_cases h (operations op a k).2 (operations op a k).1 i ht with
      ⟨hshared, hret⟩ | ⟨hshared, hnone, hret⟩
    · rw [hshared, hret]; exact hx
    · have hx' : ((operations op a k).1 : Multiset ο) = x := by simpa [hnone] using hx
      rw [hshared, hret, ← hx', Option.toList_some, Multiset.coe_add]
      exact Multiset.coe_eq_coe.2 List.perm_append_comm
  have hsum : ∀ ts : List τ, (ts.map fun t => ((ret t).toList : Multiset ο)).sum = (ts.filterMap ret : Multiset ο) := by
    intro ts
    induction ts with
    | nil => rfl
    | cons t ts ih =>
      rw [List.map_cons, List.sum_cons, ih, Multiset.coe_add, List.filterMap_cons]
      rcases ret t with _ | o <;> rfl
  intro s
  have hb := balanced_run (modular_journaled h a) hshare (inOrder_start a) rfl choices (along_free choices _)
  exact Multiset.coe_eq_coe.1 ((hsum s.threads).symm.trans hb.symm)

end

end Gungho.Lib
