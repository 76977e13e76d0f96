/-
Multimaps: a key may have several values, in order. Two multimaps are the same when every key has
the same values in both; the order between different keys carries no meaning.
-/
import Mathlib.Data.List.Basic

namespace Gungho.Lib

/-- The entries of a multimap, the values of one key in order. -/
structure Multimap (κ ν : Type*) where
  entries : List (κ × ν)
  deriving DecidableEq

namespace Multimap

variable {κ ν : Type*} [DecidableEq κ]

/-- All values of a key. -/
def getAll (m : Multimap κ ν) (k : κ) : List ν := (m.entries.filter (·.1 = k)).map (·.2)

/-- The first value of a key. -/
def get (m : Multimap κ ν) (k : κ) : Option ν := (m.getAll k).head?

def contains (m : Multimap κ ν) (k : κ) : Bool := !(m.getAll k).isEmpty

/-- Drops every value of the key. -/
def remove (m : Multimap κ ν) (k : κ) : Multimap κ ν := ⟨m.entries.filter (·.1 ≠ k)⟩

/-- Replaces every value of the key by one. -/
def insert (m : Multimap κ ν) (k : κ) (v : ν) : Multimap κ ν := ⟨(m.remove k).entries ++ [(k, v)]⟩

/-- Drops the keys one by one. -/
def removeAll (m : Multimap κ ν) (ks : List κ) : Multimap κ ν := ks.foldl remove m

/-- Every key has the same values in both. -/
def Same (m m' : Multimap κ ν) : Prop := ∀ k, m.getAll k = m'.getAll k

theorem contains_iff (m : Multimap κ ν) (k : κ) : m.contains k = true ↔ m.getAll k ≠ [] := by
  simp [contains]

theorem contains_eq_false_iff (m : Multimap κ ν) (k : κ) : m.contains k = false ↔ m.getAll k = [] := by
  simp [contains]

theorem get_eq_none_iff (m : Multimap κ ν) (k : κ) : m.get k = none ↔ m.contains k = false := by
  simp [get, contains]

theorem contains_of_get {m : Multimap κ ν} {k : κ} {v : ν} (h : m.get k = some v) : m.contains k = true := by
  rw [← Bool.not_eq_false, ← get_eq_none_iff, h]
  exact Option.some_ne_none v

theorem get_congr {m m' : Multimap κ ν} {k : κ} (h : m.getAll k = m'.getAll k) : m.get k = m'.get k := by
  rw [get, get, h]

/-! ## What a key has after an operation -/

theorem getAll_remove (m : Multimap κ ν) (k j : κ) : (m.remove k).getAll j = if j = k then [] else m.getAll j := by
  unfold remove getAll
  rw [List.filter_filter]
  split
  · rename_i h
    subst h
    simp
  · rename_i h
    congr 1
    refine List.filter_congr fun e _ => ?_
    by_cases he : e.1 = j
    · simp [he, h]
    · simp [he]

theorem getAll_insert (m : Multimap κ ν) (k : κ) (v : ν) (j : κ) :
    (m.insert k v).getAll j = if j = k then [v] else m.getAll j := by
  have hremove := getAll_remove m k j
  unfold getAll at hremove ⊢
  unfold insert
  rw [List.filter_append, List.map_append, hremove]
  split
  · rename_i h; subst h; simp
  · rename_i h; simp [Ne.symm h]

theorem getAll_insert_self (m : Multimap κ ν) (k : κ) (v : ν) : (m.insert k v).getAll k = [v] := by
  rw [getAll_insert, if_pos rfl]

theorem getAll_insert_ne (m : Multimap κ ν) {k j : κ} (h : j ≠ k) (v : ν) :
    (m.insert k v).getAll j = m.getAll j := by
  rw [getAll_insert, if_neg h]

theorem getAll_removeAll (ks : List κ) (m : Multimap κ ν) (j : κ) :
    (m.removeAll ks).getAll j = if j ∈ ks then [] else m.getAll j := by
  induction ks generalizing m with
  | nil => simp [removeAll]
  | cons k ks ih =>
    rw [show m.removeAll (k :: ks) = (m.remove k).removeAll ks from rfl, ih, getAll_remove]
    by_cases hj : j = k
    · subst hj; simp
    · simp [hj]

/-! ## Operations with a footprint -/

/-- `f` reads and changes the values of the keys in `S` and of no other key. -/
structure Local (S : List κ) (f : Multimap κ ν → Multimap κ ν) : Prop where
  frame : ∀ m k, k ∉ S → (f m).getAll k = m.getAll k
  reads : ∀ m m', (∀ k ∈ S, m.getAll k = m'.getAll k) → ∀ k ∈ S, (f m).getAll k = (f m').getAll k

variable {S T : List κ} {f g : Multimap κ ν → Multimap κ ν}

theorem Local.same (hf : Local S f) {m m' : Multimap κ ν} (h : m.Same m') : (f m).Same (f m') := by
  intro k
  by_cases hk : k ∈ S
  · exact hf.reads m m' (fun j _ => h j) k hk
  · rw [hf.frame m k hk, hf.frame m' k hk, h k]

/-- Operations with disjoint footprints commute. -/
theorem Local.comm (hf : Local S f) (hg : Local T g) (hd : S.Disjoint T) (m : Multimap κ ν) :
    (f (g m)).Same (g (f m)) := by
  intro k
  by_cases hk : k ∈ S
  · have hT : ∀ j ∈ S, (g m).getAll j = m.getAll j := fun j hj => hg.frame m j (hd hj)
    rw [hf.reads _ _ hT k hk, hg.frame _ k (hd hk)]
  · rw [hf.frame _ k hk]
    by_cases hk' : k ∈ T
    · refine hg.reads _ _ (fun j hj => ?_) k hk'
      exact (hf.frame m j fun hS => hd hS hj).symm
    · rw [hg.frame m k hk', hg.frame _ k hk', hf.frame m k hk]

/-- Operations one after the other keep the values of a key in no footprint. -/
theorem getAll_foldl_of_not_mem {ι : Type*} {op : ι → Multimap κ ν → Multimap κ ν} {S : ι → List κ}
    (hlocal : ∀ i, Local (S i) (op i)) {k : κ} (is : List ι) :
    ∀ m, (∀ i ∈ is, k ∉ S i) → (is.foldl (fun m i => op i m) m).getAll k = m.getAll k := by
  induction is with
  | nil => exact fun _ _ => rfl
  | cons i is ih =>
    intro m hk
    rw [List.foldl_cons, ih _ fun j hj => hk j (List.mem_cons_of_mem i hj)]
    exact (hlocal i).frame m k (hk i (by simp))

/-- Operations with pairwise disjoint footprints give the same result in any order. -/
theorem same_foldl_perm {ι : Type*} {op : ι → Multimap κ ν → Multimap κ ν} {S : ι → List κ}
    (hlocal : ∀ i, Local (S i) (op i)) (hd : ∀ i j, i ≠ j → (S i).Disjoint (S j)) {is js : List ι} (h : is.Perm js) :
    ∀ {m m' : Multimap κ ν}, m.Same m' →
      (is.foldl (fun m i => op i m) m).Same (js.foldl (fun m i => op i m) m') := by
  induction h with
  | nil => exact fun hm => hm
  | cons i _ ih => exact fun hm => ih ((hlocal i).same hm)
  | swap i j l =>
    intro m m' hm
    have hstart : (op i (op j m)).Same (op j (op i m')) := by
      by_cases hij : i = j
      · subst hij
        exact (hlocal i).same ((hlocal i).same hm)
      · intro k
        rw [(hlocal i).comm (hlocal j) (hd i j hij) m k]
        exact (hlocal j).same ((hlocal i).same hm) k
    rw [List.foldl_cons, List.foldl_cons, List.foldl_cons, List.foldl_cons]
    generalize op i (op j m) = a at hstart
    generalize op j (op i m') = b at hstart
    induction l generalizing a b with
    | nil => exact hstart
    | cons k l ih => exact ih _ _ ((hlocal k).same hstart)
  | trans _ _ ih₁ ih₂ => exact fun hm k => (ih₁ hm k).trans (ih₂ (fun _ => rfl) k)

end Multimap

end Gungho.Lib
