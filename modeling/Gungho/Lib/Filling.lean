/-
Filling by least count with stale reads. Threads share one counter per key; each reads the counters of a
slice one after the other, keeps a key of the least value it has read, and increments that key's
counter later, while other threads do the same. As long as at most `c` threads are between their first
read and their increment, no counter that was ever incremented is more than `c` above any other one.
-/
import Gungho.Lib.Threads
import Mathlib.Logic.Function.Basic

namespace Gungho.Lib

/-- Where a thread is: `looking` has read the slice up to `rest` and keeps a key with the value that
it read there. With nothing left to read the key is chosen. -/
inductive Pick (κ : Type*) where
  | waiting
  | looking (rest : List κ) (key : κ) (value : ℕ)
  | placed

namespace Pick

variable {κ : Type*}

/-- The thread is between its first read and its increment. -/
def pending : Pick κ → Bool
  | .looking _ _ _ => true
  | _ => false

/-- What a thread knows while the counters grow: no counter that it has read is below its value. -/
def Sound (slice : List κ) (start n : κ → ℕ) : Pick κ → Prop
  | .looking rest key value =>
    key ∈ slice ∧ start key ≤ value ∧ (∀ k ∈ rest, k ∈ slice) ∧ ∀ k ∈ slice, k ∈ rest ∨ value ≤ n k
  | _ => True

theorem sound_mono {slice : List κ} {start n n' : κ → ℕ} {t : Pick κ} (hn : ∀ k, n k ≤ n' k)
    (h : Sound slice start n t) : Sound slice start n' t := by
  cases t with
  | looking rest key value =>
    obtain ⟨hkey, hstart, hrest, hread⟩ := h
    exact ⟨hkey, hstart, hrest, fun k hk => (hread k hk).imp_right fun hv => hv.trans (hn k)⟩
  | _ => trivial

/-- Reading one more key, a thread that keeps the lower of the two values still keeps the least. -/
theorem read_next {slice rest : List κ} {n : κ → ℕ} {k : κ} {value value' : ℕ}
    (hread : ∀ x ∈ slice, x ∈ k :: rest ∨ value ≤ n x) (hle : value' ≤ value) (hk : value' ≤ n k) :
    ∀ x ∈ slice, x ∈ rest ∨ value' ≤ n x := by
  rintro x hx
  rcases hread x hx with hx | hx
  · rcases List.mem_cons.1 hx with rfl | hx
    · exact .inr hk
    · exact .inl hx
  · exact .inr (hle.trans hx)

variable [DecidableEq κ]

/-- The steps of a thread, which end with an increment or without one. -/
inductive Step (slice : List κ) : (κ → ℕ) → Pick κ → (κ → ℕ) → Pick κ → Prop
  | stay (n : κ → ℕ) (t : Pick κ) : Step slice n t n t
  | first {n : κ → ℕ} {k : κ} {rest : List κ} : slice = k :: rest → Step slice n .waiting n (.looking rest k (n k))
  | lower {n : κ → ℕ} {k : κ} {rest : List κ} {key : κ} {value : ℕ} :
    n k < value → Step slice n (.looking (k :: rest) key value) n (.looking rest k (n k))
  | keep {n : κ → ℕ} {k : κ} {rest : List κ} {key : κ} {value : ℕ} :
    value ≤ n k → Step slice n (.looking (k :: rest) key value) n (.looking rest key value)
  | place {n : κ → ℕ} {key : κ} {value : ℕ} :
    Step slice n (.looking [] key value) (Function.update n key (n key + 1)) .placed
  | leave (n : κ → ℕ) (t : Pick κ) : Step slice n t n .placed

/-- The thread keeps `b` with a value of at most `level`. -/
def aims (b : κ) (level : ℕ) : Pick κ → Bool
  | .looking _ key value => key = b ∧ value ≤ level
  | _ => false

theorem pending_of_aims {b : κ} {level : ℕ} {t : Pick κ} (h : t.aims b level = true) : t.pending = true := by
  cases t with
  | looking rest key value => rfl
  | _ => cases h

/-- Nobody aims below the count that has just been read. -/
theorem not_aims_read {n : κ → ℕ} {b k : κ} {rest : List κ} {level : ℕ} (hlt : level < n b) :
    ¬ (Pick.looking rest k (n k)).aims b level = true := by
  intro h
  obtain ⟨rfl, hle⟩ := of_decide_eq_true h
  omega

end Pick

open Pick

variable {κ : Type*}

theorem countP_middle (p : Pick κ → Bool) (pre post : List (Pick κ)) (t : Pick κ) :
    (pre ++ t :: post).countP p = (pre ++ post).countP p + if p t then 1 else 0 := by
  rw [List.countP_append, List.countP_append, List.countP_cons, Nat.add_assoc]

variable [DecidableEq κ]

/-- The counters `n` have grown from `start`. The counter of a key is above a level that another counter of
the slice has not passed by no more than what `c` leaves to the threads that aim at the key there. -/
structure Filled (slice : List κ) (start : κ → ℕ) (c : ℕ) (n : κ → ℕ) (ts : List (Pick κ)) : Prop where
  grown : ∀ k, start k ≤ n k
  raised : ∀ b, start b < n b → ∀ x ∈ slice, start b ≤ n x
  sound : ∀ t ∈ ts, Sound slice start n t
  level : ∀ b, ∀ x ∈ slice, ∀ level, start b ≤ level → n x ≤ level → level < n b →
    n b - level + ts.countP (aims b level) ≤ c

section

variable {slice : List κ} {start n n' : κ → ℕ} {c : ℕ} {ts pre post : List (Pick κ)} {t t' : Pick κ}

theorem filled_start (slice : List κ) (start : κ → ℕ) (c : ℕ) : Filled slice start c start [] where
  grown _ := Nat.le_refl _
  raised b h := absurd h (Nat.lt_irrefl _)
  sound t ht := by cases ht
  level b x hx level hb _ hlt := absurd hlt (Nat.not_lt.2 hb)

theorem filled_waiting (h : Filled slice start c n ts) : Filled slice start c n (ts ++ [.waiting]) where
  grown := h.grown
  raised := h.raised
  sound t ht := by
    rcases List.mem_append.1 ht with ht | ht
    · exact h.sound t ht
    · rw [List.mem_singleton.1 ht]
      trivial
  level b x hx level hb hx' hlt := by
    rw [List.countP_append]
    exact h.level b x hx level hb hx' hlt

/-- A step that increments nothing may not aim at a key above a level that it has passed. -/
theorem filled_replace (h : Filled slice start c n (pre ++ t :: post)) (hsound : Sound slice start n t')
    (haims : ∀ b level, level < n b → t'.aims b level = true → t.aims b level = true) :
    Filled slice start c n (pre ++ t' :: post) where
  grown := h.grown
  raised := h.raised
  sound u hu := by
    rcases mem_middle hu with rfl | hu
    · exact hsound
    · exact h.sound u hu
  level b x hx level hb hx' hlt := by
    have hold := h.level b x hx level hb hx' hlt
    rw [countP_middle] at hold ⊢
    have hshare := haims b level hlt
    split
    · rename_i hnew
      rw [if_pos (hshare hnew)] at hold
      exact hold
    · omega

/-- The increment. Above an old level of its key the thread has only changed sides; a new level is
the count itself, above which are only the threads that aim at the key. -/
theorem filled_place {key : κ} {value : ℕ} (h : Filled slice start c n (pre ++ .looking [] key value :: post))
    (hc : (pre ++ .looking [] key value :: post).countP pending ≤ c) :
    Filled slice start c (Function.update n key (n key + 1)) (pre ++ .placed :: post) := by
  have hmono : ∀ k, n k ≤ Function.update n key (n key + 1) k := fun k => by
    rw [Function.update_apply]
    split
    · rename_i hk
      rw [hk]
      exact Nat.le_succ _
    · exact Nat.le_refl _
  obtain ⟨hkey, hstart, -, hread⟩ := h.sound (.looking [] key value) (by simp)
  have hvalue : ∀ x ∈ slice, value ≤ n x := fun x hx => (hread x hx).resolve_left List.not_mem_nil
  refine ⟨fun k => (h.grown k).trans (hmono k), fun b hb x hx => ?_, fun u hu => ?_, fun b x hx level hb hx' hlt => ?_⟩
  · by_cases hbk : b = key
    · rw [hbk]
      exact (hstart.trans (hvalue x hx)).trans (hmono x)
    · rw [Function.update_of_ne hbk] at hb
      exact (h.raised b hb x hx).trans (hmono x)
  · rcases mem_middle hu with rfl | hu
    · trivial
    · exact sound_mono hmono (h.sound u hu)
  · have hlow : n x ≤ level := (hmono x).trans hx'
    have haims : (Pick.looking [] key value).aims key level = true :=
      decide_eq_true ⟨rfl, (hvalue x hx).trans hlow⟩
    rw [countP_middle, if_neg (show ¬ Pick.placed.aims b level = true from Bool.false_ne_true)]
    by_cases hbk : b = key
    · subst hbk
      rw [Function.update_self] at hlt ⊢
      rcases Nat.lt_succ_iff_lt_or_eq.1 hlt with hlt | rfl
      · have hold := h.level b x hx level hb hlow hlt
        rw [countP_middle, if_pos haims] at hold
        omega
      · have hall : (pre ++ post).countP (aims b (n b)) ≤ (pre ++ post).countP pending :=
          List.countP_mono_left fun u _ hu => pending_of_aims hu
        rw [countP_middle, if_pos (show (Pick.looking [] b value).pending = true from rfl)] at hc
        omega
    · rw [Function.update_of_ne hbk] at hlt ⊢
      have hold := h.level b x hx level hb hlow hlt
      rw [countP_middle] at hold
      omega

theorem filled_step (h : Filled slice start c n (pre ++ t :: post)) (hstep : Step slice n t n' t')
    (hc : (pre ++ t :: post).countP pending ≤ c) : Filled slice start c n' (pre ++ t' :: post) := by
  have hsound : Sound slice start n t := h.sound t (by simp)
  cases hstep with
  | stay => exact h
  | @first k rest hslice =>
    have hread : ∀ x ∈ slice, x ∈ k :: rest ∨ n k ≤ n x := fun x hx => .inl (hslice ▸ hx)
    refine filled_replace h ⟨?_, h.grown k, ?_, read_next hread (Nat.le_refl _) (Nat.le_refl _)⟩
      fun b level hlt haims => absurd haims (not_aims_read hlt)
    · simp [hslice]
    · rintro x hx
      simp [hslice, hx]
  | @lower k rest key value hv =>
    obtain ⟨-, -, hrest, hread⟩ := hsound
    rw [List.forall_mem_cons] at hrest
    exact filled_replace h ⟨hrest.1, h.grown k, hrest.2, read_next hread hv.le (Nat.le_refl _)⟩
      fun b level hlt haims => absurd haims (not_aims_read hlt)
  | @keep k rest key value hv =>
    obtain ⟨hkey, hstart, hrest, hread⟩ := hsound
    rw [List.forall_mem_cons] at hrest
    exact filled_replace h ⟨hkey, hstart, hrest.2, read_next hread (Nat.le_refl _) hv⟩ fun b level _ haims => haims
  | place => exact filled_place h hc
  | leave => exact filled_replace h trivial fun b level _ haims => by cases haims

/-- An incremented counter is at most `c` above any counter of the slice. -/
theorem Filled.le_add (h : Filled slice start c n ts) {b x : κ} (hb : start b < n b) (hx : x ∈ slice) :
    n b ≤ n x + c := by
  rcases Nat.lt_or_ge (n x) (n b) with hlt | hge
  · have := h.level b x hx (n x) (h.raised b hb x hx) (Nat.le_refl _) hlt
    omega
  · omega

end

end Gungho.Lib
