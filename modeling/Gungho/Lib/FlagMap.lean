/-
Maps from a fixed list of distinct keys to flags. A flag is set by key or by the position of its key,
and the map lists the keys whose flag is raised, in the order of the keys.
-/
import Mathlib.Data.List.Nodup
import Mathlib.Logic.Function.Basic

namespace Gungho.Lib

variable {K : Type*}

/-! ## Filtering a list where the predicate changes at one element -/

/-- A filtered list after its predicate has changed at one element, and at no other. -/
theorem filter_middle {p q : K → Bool} {pre post : List K} {b : K} (hn : (pre ++ b :: post).Nodup)
    (h : ∀ c ∈ pre ++ b :: post, c ≠ b → q c = p c) :
    (pre ++ b :: post).filter q = pre.filter p ++ (if q b then [b] else []) ++ post.filter p := by
  have hne : ∀ c, c ∈ pre ∨ c ∈ post → c ≠ b := by
    rintro c hc rfl
    rw [List.nodup_middle, List.nodup_cons, List.mem_append] at hn
    exact hn.1 hc
  have hpre : pre.filter q = pre.filter p := List.filter_congr fun c hc => h c (by simp [hc]) (hne c (.inl hc))
  have hpost : post.filter q = post.filter p := List.filter_congr fun c hc => h c (by simp [hc]) (hne c (.inr hc))
  rw [List.filter_append, List.filter_cons, hpre, hpost]
  split <;> simp

/-! ## The map -/

structure FlagMap (K : Type*) where
  keys : List K
  nodup : keys.Nodup
  flag : K → Option Bool
  dom : ∀ k, flag k = none ↔ k ∉ keys

namespace FlagMap

variable [DecidableEq K]

/-- Sets the flag of a key. A key that is not there gives `none` and changes nothing. -/
def set (m : FlagMap K) (k : K) (v : Bool) : Option Unit × FlagMap K :=
  if h : k ∈ m.keys then
    (some (), { m with
      flag := Function.update m.flag k (some v)
      dom := fun j => by
        by_cases hj : j = k
        · subst hj; simp [h]
        · rw [Function.update_of_ne hj, m.dom] })
  else (none, m)

/-- Sets the flag of the key at a position. -/
def setAt (m : FlagMap K) (i : ℕ) (v : Bool) : Option Unit × FlagMap K :=
  match m.keys[i]? with
  | none => (none, m)
  | some k => m.set k v

/-- The keys whose flag is raised. -/
def raised (m : FlagMap K) : List K := m.keys.filter (fun k => m.flag k = some true)

variable {m : FlagMap K} {k : K}

theorem set_present (hk : k ∈ m.keys) (v : Bool) :
    (m.set k v).1 = some () ∧ (m.set k v).2.flag = Function.update m.flag k (some v) := by
  unfold set
  rw [dif_pos hk]
  exact ⟨rfl, rfl⟩

theorem set_absent (hk : k ∉ m.keys) (v : Bool) : m.set k v = (none, m) := dif_neg hk

@[simp] theorem set_keys (m : FlagMap K) (k : K) (v : Bool) : (m.set k v).2.keys = m.keys := by
  unfold set
  split <;> rfl

end FlagMap

end Gungho.Lib
