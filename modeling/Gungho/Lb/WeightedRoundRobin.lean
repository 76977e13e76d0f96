/-
Smooth weighted round robin: `lb/weighted_round_robin.rs`. The credits sit in a vector that the
first call on a non-empty slice allocates, with one slot for each position of that slice; a later
call indexes the same vector by the positions of its own slice. Credits and `total_weight` are
`i64` with the wrapping arithmetic of the atomics and of a release build.
-/
import Gungho.Pool.Backend

namespace Gungho.Lb

open Gungho.Pool

/-- The panic of a slice index. -/
inductive Panic where
  | indexOutOfBounds (len index : Nat)
  deriving DecidableEq, Repr

def Panic.message : Panic → String
  | .indexOutOfBounds len index => s!"index out of bounds: the len is {len} but the index is {index}"

/-- What a loop over a slice has yet to visit begins with the backend at its position. -/
theorem drop_cons {slice rest : List Backend} {i : Nat} {b : Backend} (h : slice.drop i = b :: rest) :
    slice[i]? = some b ∧ slice.drop (i + 1) = rest := by
  constructor
  · rw [← List.head?_drop, h, List.head?_cons]
  · rw [← List.tail_drop, h, List.tail_cons]

/-- `credits` is `none` until `get_or_init` has run. -/
structure WeightedRoundRobin where
  credits : Option (List Int64)
  deriving DecidableEq

namespace WeightedRoundRobin

def new : WeightedRoundRobin := ⟨none⟩

/-- The vector and the local variables of `select` in its loop. -/
structure Scan where
  credits : List Int64
  totalWeight : Int64
  bestIndex : Nat
  bestCredit : Int64
  deriving DecidableEq

/-- The variables as the loop is entered. -/
def Scan.start (credits : List Int64) : Scan := ⟨credits, 0, 0, Int64.minValue⟩

/-- `i64::from(backend.get_weight())`. -/
def weight (b : Backend) : Int64 := Int64.ofNat b.weight.toNat

/-- The body of the loop for the backend at position `i`, whose slot holds `credit`. -/
def Scan.visit (s : Scan) (i : Nat) (b : Backend) (credit : Int64) : Scan :=
  let credit := credit + weight b
  { credits := s.credits.set i credit
    totalWeight := s.totalWeight + weight b
    bestIndex := if s.bestCredit < credit then i else s.bestIndex
    bestCredit := if s.bestCredit < credit then credit else s.bestCredit }

/-- The loop from position `i` on. Indexing past the last slot panics and leaves the credits as far
as the loop has come. -/
def scan (s : Scan) (i : Nat) : List Backend → Option Panic × Scan
  | [] => (none, s)
  | b :: rest =>
    match s.credits[i]? with
    | none => (some (.indexOutOfBounds s.credits.length i), s)
    | some credit => scan (s.visit i b credit) (i + 1) rest

/-- `credits.get_or_init(..)`. -/
def getOrInit (s : WeightedRoundRobin) (backends : List Backend) : List Int64 :=
  s.credits.getD (List.replicate backends.length 0)

def select (s : WeightedRoundRobin) (backends : List Backend) : Except Panic (Option Nat) × WeightedRoundRobin :=
  if backends.isEmpty then (.ok none, s)
  else
    match scan (.start (s.getOrInit backends)) 0 backends with
    | (some panic, t) => (.error panic, ⟨some t.credits⟩)
    | (none, t) =>
      match t.credits[t.bestIndex]? with
      | some winnerCredit =>
        (.ok (some t.bestIndex), ⟨some (t.credits.set t.bestIndex (winnerCredit - t.totalWeight))⟩)
      | none => (.ok (some t.bestIndex), ⟨some t.credits⟩)

/-! ## Positions and slots -/

@[simp] theorem visit_length (s : Scan) (i : Nat) (b : Backend) (credit : Int64) :
    (s.visit i b credit).credits.length = s.credits.length := List.length_set

theorem scan_length (s : Scan) (i : Nat) (backends : List Backend) :
    (scan s i backends).2.credits.length = s.credits.length := by
  induction backends generalizing s i with
  | nil => rfl
  | cons b rest ih =>
    unfold scan
    split
    · rfl
    · rw [ih, visit_length]

/-- The loop panics exactly when it comes to a position without a slot. -/
theorem scan_panics_iff (s : Scan) (i : Nat) (backends : List Backend) (hi : i ≤ s.credits.length) :
    (scan s i backends).1.isSome ↔ s.credits.length < i + backends.length := by
  induction backends generalizing s i with
  | nil => simp [scan]; omega
  | cons b rest ih =>
    unfold scan
    split
    · rename_i hnone
      have := List.getElem?_eq_none_iff.1 hnone
      simp only [Option.isSome_some, List.length_cons, true_iff]
      omega
    · rename_i credit hcredit
      have := (List.getElem?_eq_some_iff.1 hcredit).1
      rw [ih _ _ (by rw [visit_length]; omega), visit_length, List.length_cons]
      omega

/-- The best index is a position the loop has visited, or still the initial 0. -/
theorem scan_bestIndex_lt (s : Scan) (i : Nat) (backends : List Backend) (n : Nat)
    (hs : s.bestIndex < n) (hn : i + backends.length ≤ n) : (scan s i backends).2.bestIndex < n := by
  induction backends generalizing s i with
  | nil => exact hs
  | cons b rest ih =>
    rw [List.length_cons] at hn
    unfold scan
    split
    · exact hs
    · refine ih _ _ ?_ (by omega)
      unfold Scan.visit
      dsimp only
      split <;> omega

theorem getOrInit_length (s : WeightedRoundRobin) (backends : List Backend) :
    (s.getOrInit backends).length = (s.credits.map List.length).getD backends.length := by
  rcases s with ⟨_ | credits⟩ <;> simp [getOrInit]

theorem select_nil (s : WeightedRoundRobin) : s.select [] = (.ok none, s) := rfl

/-- On a slice with a slot for each position the call returns one of its indices. -/
theorem select_valid (s : WeightedRoundRobin) {backends : List Backend} (hne : backends ≠ [])
    (hlen : backends.length ≤ (s.getOrInit backends).length) :
    ∃ i < backends.length, ∃ credits, s.select backends = (.ok (some i), ⟨some credits⟩) ∧
      credits.length = (s.getOrInit backends).length := by
  have hpos := List.length_pos_iff.2 hne
  have hpanic := scan_panics_iff (.start (s.getOrInit backends)) 0 backends (Nat.zero_le _)
  have hbest := scan_bestIndex_lt (.start (s.getOrInit backends)) 0 backends backends.length hpos (by omega)
  have hlength := scan_length (.start (s.getOrInit backends)) 0 backends
  unfold select
  rw [if_neg (by simpa using hne)]
  generalize scan (.start (s.getOrInit backends)) 0 backends = r at hpanic hbest hlength ⊢
  obtain ⟨_ | panic, t⟩ := r
  · dsimp only at hbest hlength ⊢
    split
    · exact ⟨t.bestIndex, hbest, _, rfl, List.length_set.trans hlength⟩
    · exact ⟨t.bestIndex, hbest, _, rfl, hlength⟩
  · have : (Scan.start (s.getOrInit backends)).credits.length < 0 + backends.length := hpanic.1 rfl
    simp only [Scan.start] at this
    omega

/-- On a slice longer than the vector the call panics. -/
theorem select_panics (s : WeightedRoundRobin) {backends : List Backend}
    (hlen : (s.getOrInit backends).length < backends.length) :
    ∃ panic credits, s.select backends = (.error panic, ⟨some credits⟩) ∧
      credits.length = (s.getOrInit backends).length := by
  have hne : backends ≠ [] := List.length_pos_iff.1 (by omega)
  have hpanic := (scan_panics_iff (.start (s.getOrInit backends)) 0 backends (Nat.zero_le _)).2
    (by simpa [Scan.start] using hlen)
  have hlength := scan_length (.start (s.getOrInit backends)) 0 backends
  unfold select
  rw [if_neg (by simpa using hne)]
  generalize scan (.start (s.getOrInit backends)) 0 backends = r at hpanic hlength ⊢
  obtain ⟨_ | panic, t⟩ := r
  · simp at hpanic
  · exact ⟨panic, t.credits, rfl, hlength⟩

/-- No call changes the number of slots once the vector is there. -/
theorem select_length {s : WeightedRoundRobin} {credits : List Int64} (h : s.credits = some credits)
    (backends : List Backend) :
    ∃ credits', (s.select backends).2.credits = some credits' ∧ credits'.length = credits.length := by
  have hlen : (s.getOrInit backends).length = credits.length := by rw [getOrInit, h]; rfl
  by_cases hne : backends = []
  · subst hne; exact ⟨credits, h, rfl⟩
  by_cases hslots : backends.length ≤ (s.getOrInit backends).length
  · obtain ⟨i, -, credits', hsel, hl⟩ := s.select_valid hne hslots
    exact ⟨credits', by rw [hsel], hl.trans hlen⟩
  · obtain ⟨panic, credits', hsel, hl⟩ := s.select_panics (Nat.lt_of_not_le hslots)
    exact ⟨credits', by rw [hsel], hl.trans hlen⟩

/-- The first non-empty slice makes the vector, with one slot for each of its positions. -/
theorem select_new_length {backends : List Backend} (hne : backends ≠ []) :
    ∃ credits, (new.select backends).2.credits = some credits ∧ credits.length = backends.length := by
  have hlen : (new.getOrInit backends).length = backends.length := List.length_replicate
  obtain ⟨i, -, credits, hsel, hl⟩ := new.select_valid hne hlen.ge
  exact ⟨credits, by rw [hsel], hl.trans hlen⟩

end WeightedRoundRobin

/-! ## Slices that have their slots -/

/-- The first slice that is not empty. -/
def firstSlice (slices : List (List Backend)) : List Backend := (slices.find? (!·.isEmpty)).getD []

@[simp] theorem firstSlice_nil_cons (ss : List (List Backend)) : firstSlice ([] :: ss) = firstSlice ss := rfl

theorem firstSlice_cons {s : List Backend} (h : s ≠ []) (ss : List (List Backend)) : firstSlice (s :: ss) = s := by
  simp [firstSlice, h]

/-- Every slice has its slots: those the vector has, or those the first non-empty slice brings. -/
def Fits (slots : Option Nat) (slices : List (List Backend)) : Prop :=
  ∀ s ∈ slices, s.length ≤ slots.getD (firstSlice slices).length

theorem fits_nil_cons (slots : Option Nat) (ss : List (List Backend)) : Fits slots ([] :: ss) ↔ Fits slots ss := by
  simp [Fits]

theorem fits_cons (slots : Option Nat) {s : List Backend} (hs : s ≠ []) (ss : List (List Backend)) :
    Fits slots (s :: ss) ↔ s.length ≤ slots.getD s.length ∧ Fits (some (slots.getD s.length)) ss := by
  simp [Fits, firstSlice_cons hs]

theorem fits_length {slots : Option Nat} {s : List Backend} {ss : List (List Backend)} (h : Fits slots (s :: ss)) :
    s.length ≤ slots.getD s.length := by
  by_cases hs : s = []
  · subst hs; exact Nat.zero_le _
  · exact ((fits_cons slots hs ss).1 h).1

/-- The vector a call leaves behind has the slots that the remaining slices need. -/
theorem WeightedRoundRobin.fits_select {s : WeightedRoundRobin} {slice : List Backend} {ss : List (List Backend)}
    (h : Fits (s.credits.map List.length) (slice :: ss)) : Fits ((s.select slice).2.credits.map List.length) ss := by
  by_cases hs : slice = []
  · subst hs
    rw [select_nil]
    exact (fits_nil_cons _ ss).1 h
  · obtain ⟨hlen, hrest⟩ := (fits_cons _ hs ss).1 h
    rw [← s.getOrInit_length] at hlen hrest
    obtain ⟨i, -, credits, hsel, hcredits⟩ := s.select_valid hs hlen
    rw [hsel, Option.map_some, hcredits]
    exact hrest

end Gungho.Lb
