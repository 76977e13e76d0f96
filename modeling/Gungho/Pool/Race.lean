/-
Concurrent mark calls. A call of one of the four mark methods is several atomic steps: it stores
its flag, reads the flag of every backend of the pool in turn, and replaces the cache under the
write lock by the list it collected. The flags are read before the lock is taken, so another
call's store may land between a call's reads and its write, and the older list may be written last.

An interleaving is a run whose inputs say which call starts and which call takes its next step. A
call run alone is the sequential mark. A run in which no store changes a flag behind the back of a
call that has already read it leaves the cache in sync whenever no call is in progress.
-/
import Gungho.Lib.Run
import Gungho.Pool.Backend

namespace Gungho.Pool

open Gungho.Lib

/-! ## The steps of the calls -/

/-- What a call in progress does next: store its flag, or read the first of the backends `rest`
and, when none is left, replace the cache by `healthy`. -/
inductive Phase where
  | store (b : Backend) (flag : Bool)
  | collect (healthy rest : List Backend)
  deriving DecidableEq, Repr

/-- A pool and its mark calls in progress, by caller. -/
structure Race where
  pool : BackendPool
  calls : Nat → Option Phase

inductive Act where
  | invoke (t : Nat) (op : MarkOp)
  | step (t : Nat)
  deriving DecidableEq, Repr

def Act.caller : Act → Nat
  | .invoke t _ => t
  | .step t => t

def Race.setCall (s : Race) (t : Nat) (phase : Option Phase) : Race :=
  { s with calls := fun u => if u = t then phase else s.calls u }

/-- The next step of a call. -/
def Race.advance (s : Race) (t : Nat) : Phase → Race
  | .store b flag =>
    { s with pool := { s.pool with mem := b.setHealth flag s.pool.mem } }.setCall t
      (some (.collect [] s.pool.backends))
  | .collect healthy (b :: rest) =>
    s.setCall t (some (.collect (if b.getHealth s.pool.mem then healthy ++ [b] else healthy) rest))
  | .collect healthy [] => { s with pool := { s.pool with healthyCache := healthy } }.setCall t none

/-- One step of the interleaving. A call that finds no backend returns `None` at once; a busy caller
does not start another call and an idle one has no step to take. -/
def Race.next (s : Race) : Act → Race
  | .invoke t op =>
    match s.calls t, op.target s.pool.backends with
    | none, some b => s.setCall t (some (.store b op.flag))
    | _, _ => s
  | .step t =>
    match s.calls t with
    | none => s
    | some phase => s.advance t phase

def raceStep (s : Race) (a : Act) : Unit × Race := ((), s.next a)

/-- No call is in progress. -/
def Race.Quiescent (s : Race) : Prop := ∀ t, s.calls t = none

/-- The pool before any call. -/
def Race.start (p : BackendPool) : Race := ⟨p, fun _ => none⟩

@[simp] theorem setCall_pool (s : Race) (t : Nat) (phase : Option Phase) : (s.setCall t phase).pool = s.pool := rfl

@[simp] theorem setCall_self (s : Race) (t : Nat) (phase : Option Phase) : (s.setCall t phase).calls t = phase :=
  if_pos rfl

theorem setCall_ne (s : Race) {t u : Nat} (h : u ≠ t) (phase : Option Phase) :
    (s.setCall t phase).calls u = s.calls u :=
  if_neg h

theorem advance_calls_ne (s : Race) {t u : Nat} (h : u ≠ t) (phase : Phase) :
    (s.advance t phase).calls u = s.calls u := by
  match phase with
  | .store b flag => exact setCall_ne _ h _
  | .collect healthy (b :: rest) => exact setCall_ne _ h _
  | .collect healthy [] => exact setCall_ne _ h _

/-! ## A call on its own -/

/-- A call that collects undisturbed ends with the cache rebuilt from the flags. -/
theorem collect_alone (t : Nat) (rest : List Backend) :
    ∀ (s : Race) (healthy : List Backend), s.calls t = some (.collect healthy rest) →
      let s' := (run raceStep s (List.replicate (rest.length + 1) (.step t))).2
      s'.pool = { s.pool with healthyCache := healthy ++ rest.filter (·.getHealth s.pool.mem) } ∧
        s'.calls t = none ∧ ∀ u, u ≠ t → s'.calls u = s.calls u := by
  induction rest with
  | nil =>
    intro s healthy h
    simp only [List.length_nil, List.replicate_succ, List.replicate_zero, run_cons, run_nil, raceStep, Race.next, h,
      Race.advance, List.filter_nil, List.append_nil]
    exact ⟨rfl, setCall_self _ t _, fun u hu => setCall_ne _ hu _⟩
  | cons b rest ih =>
    intro s healthy h
    have hnext : s.next (.step t) =
        s.setCall t (some (.collect (if b.getHealth s.pool.mem then healthy ++ [b] else healthy) rest)) := by
      simp only [Race.next, h, Race.advance]
    obtain ⟨hpool, hdone, hother⟩ := ih (s.next (.step t)) _ (by rw [hnext]; exact setCall_self ..)
    rw [List.length_cons, List.replicate_succ, run_cons]
    refine ⟨?_, hdone, fun u hu => ?_⟩
    · show (run raceStep (s.next (.step t)) _).2.pool = _
      rw [hpool, hnext]
      simp only [setCall_pool, List.filter_cons]
      split <;> simp
    · show (run raceStep (s.next (.step t)) _).2.calls u = _
      rw [hother u hu, hnext, setCall_ne _ hu]

/-- A call that runs undisturbed is the sequential mark. -/
theorem call_alone (p : BackendPool) (t : Nat) (op : MarkOp) :
    let s := (run raceStep (.start p) (.invoke t op :: List.replicate (p.backends.length + 2) (.step t))).2
    s.pool = (op.apply p).2 ∧ s.Quiescent := by
  intro s
  rw [MarkOp.apply_eq]
  rcases htarget : op.target p.backends with _ | b
  · have hidle : ∀ n, (run raceStep (.start p) (List.replicate n (.step t))).2 = .start p := by
      intro n
      induction n with
      | zero => rfl
      | succ n ih => rw [List.replicate_succ, run_cons]; exact ih
    have hs : s = .start p := by
      show (run raceStep (raceStep (.start p) (.invoke t op)).2 _).2 = _
      have hnext : (raceStep (.start p) (.invoke t op)).2 = .start p := by
        simp only [raceStep, Race.next, Race.start, htarget]
      rw [hnext, hidle]
    rw [hs]
    exact ⟨rfl, fun _ => rfl⟩
  · let s1 : Race := ⟨{ p with mem := b.setHealth op.flag p.mem }, fun u =>
      if u = t then some (.collect [] p.backends) else (Race.start p).calls u⟩
    have hs : s = (run raceStep s1 (List.replicate (p.backends.length + 1) (.step t))).2 := by
      show (run raceStep (raceStep (raceStep (.start p) (.invoke t op)).2 (.step t)).2 _).2 = _
      have hnext : (raceStep (.start p) (.invoke t op)).2 = (Race.start p).setCall t (some (.store b op.flag)) := by
        simp only [raceStep, Race.next, Race.start, htarget]
      have hstore : (raceStep ((Race.start p).setCall t (some (.store b op.flag))) (.step t)).2 = s1 := by
        simp only [raceStep, Race.next, setCall_self, Race.advance]
        unfold Race.setCall s1
        simp only [Race.mk.injEq]
        exact ⟨rfl, funext fun u => by split <;> rfl⟩
      rw [hnext, hstore]
    obtain ⟨hpool, hdone, hother⟩ := collect_alone t p.backends s1 [] (if_pos rfl)
    rw [hs]
    refine ⟨hpool, fun u => ?_⟩
    by_cases hu : u = t
    · rw [hu]; exact hdone
    · rw [hother u hu]; exact if_neg hu

/-! ## Calls that do not overtake each other -/

/-- The step is not a store that changes a flag another call has already read and has yet to write
its list. -/
def NoOvertake (s : Race) (a : Act) : Prop :=
  ∀ t b flag, a = .step t → s.calls t = some (.store b flag) → flag ≠ b.getHealth s.pool.mem →
    ∀ u healthy rest, u ≠ t → s.calls u = some (.collect healthy rest) → b ∈ rest

/-- Every collecting call holds the healthy ones among the backends it has read; the cache is in
sync unless a call is still to replace it. -/
structure RaceInv (s : Race) : Prop where
  store : ∀ t b flag, s.calls t = some (.store b flag) → b ∈ s.pool.backends
  collect : ∀ t healthy rest, s.calls t = some (.collect healthy rest) →
    ∃ done, s.pool.backends = done ++ rest ∧ healthy = done.filter (·.getHealth s.pool.mem)
  cache : s.pool.Synced ∨ ∃ t healthy rest, s.calls t = some (.collect healthy rest)

theorem raceInv_start {p : BackendPool} (h : p.Synced) : RaceInv (.start p) :=
  ⟨fun _ _ _ h => (Option.some_ne_none _ h.symm).elim, fun _ _ _ h => (Option.some_ne_none _ h.symm).elim, .inl h⟩

theorem raceInv_invoke {s : Race} (hi : RaceInv s) (t : Nat) (op : MarkOp) : RaceInv (s.next (.invoke t op)) := by
  simp only [Race.next]
  split
  · rename_i b hidle htarget
    have hb : b ∈ s.pool.backends := by
      cases op with
      | markHealthy i => exact List.mem_of_getElem? htarget
      | markUnhealthy i => exact List.mem_of_getElem? htarget
      | markHealthyByAddr addr => exact List.mem_of_find?_eq_some htarget
      | markUnhealthyByAddr addr => exact List.mem_of_find?_eq_some htarget
    -- the new call is in its store phase: the collecting calls are those of `s`
    have hcollect : ∀ u healthy rest,
        (s.setCall t (some (.store b op.flag))).calls u = some (.collect healthy rest) →
        s.calls u = some (.collect healthy rest) := by
      intro u healthy rest h
      by_cases hu : u = t
      · rw [hu, setCall_self] at h; cases h
      · rwa [setCall_ne _ hu] at h
    refine ⟨fun u c flag h => ?_, fun u healthy rest h => hi.collect u healthy rest (hcollect u healthy rest h), ?_⟩
    · by_cases hu : u = t
      · rw [hu, setCall_self] at h
        cases h; exact hb
      · rw [setCall_ne _ hu] at h
        exact hi.store u c flag h
    · refine hi.cache.imp id ?_
      rintro ⟨u, healthy, rest, h⟩
      have hu : u ≠ t := by rintro rfl; rw [hidle] at h; cases h
      exact ⟨u, healthy, rest, by rwa [setCall_ne _ hu]⟩
  · exact hi

/-- A store that overtakes no reader leaves every collected list right for the new flags. -/
theorem raceInv_store {s : Race} (hi : RaceInv s) {t : Nat} {b : Backend} {flag : Bool}
    (h : s.calls t = some (.store b flag)) (hc : NoOvertake s (.step t)) : RaceInv (s.advance t (.store b flag)) := by
  have hb := hi.store t b flag h
  refine ⟨fun u c flag' hu => ?_, fun u healthy rest hu => ?_, .inr ⟨t, [], s.pool.backends, setCall_self ..⟩⟩
  · by_cases hut : u = t
    · rw [hut] at hu; exact absurd ((setCall_self _ t _).symm.trans hu) (by simp)
    · rw [advance_calls_ne s hut] at hu
      exact hi.store u c flag' hu
  · by_cases hut : u = t
    · rw [hut] at hu
      cases (setCall_self _ t _).symm.trans hu
      exact ⟨[], rfl, rfl⟩
    · rw [advance_calls_ne s hut] at hu
      obtain ⟨done, hdone, hlist⟩ := hi.collect u healthy rest hu
      refine ⟨done, hdone, hlist.trans (List.filter_congr fun c hcd => ?_)⟩
      show c.getHealth s.pool.mem = c.getHealth (b.setHealth flag s.pool.mem)
      have hcb : c ∈ s.pool.backends := by rw [hdone]; exact List.mem_append_left _ hcd
      by_cases hid : c.id = b.id
      · have hcb' := s.pool.eq_of_id_eq hcb hb hid
        subst hcb'
        rw [Backend.getHealth_setHealth_self]
        by_contra hne
        -- `c` was read already, so it is not among the backends still to read
        have hrest := hc t c flag rfl h (fun e => hne e.symm) u healthy rest hut hu
        have hnd := s.pool.backends_nodup
        rw [hdone] at hnd
        exact (List.disjoint_of_nodup_append hnd) hcd hrest
      · exact (Backend.getHealth_setHealth_of_ne hid flag s.pool.mem).symm

theorem raceInv_read {s : Race} (hi : RaceInv s) {t : Nat} {healthy rest : List Backend} {b : Backend}
    (h : s.calls t = some (.collect healthy (b :: rest))) : RaceInv (s.advance t (.collect healthy (b :: rest))) := by
  refine ⟨fun u c flag hu => ?_, fun u healthy' rest' hu => ?_, .inr ⟨t, _, rest, setCall_self ..⟩⟩
  · by_cases hut : u = t
    · rw [hut] at hu; exact absurd ((setCall_self _ t _).symm.trans hu) (by simp)
    · rw [advance_calls_ne s hut] at hu
      exact hi.store u c flag hu
  · by_cases hut : u = t
    · rw [hut] at hu
      cases (setCall_self _ t _).symm.trans hu
      obtain ⟨done, hdone, hlist⟩ := hi.collect t healthy (b :: rest) h
      refine ⟨done ++ [b], by rw [List.append_assoc]; exact hdone, ?_⟩
      show _ = (done ++ [b]).filter (·.getHealth s.pool.mem)
      rw [List.filter_append, ← hlist, List.filter_singleton]
      cases b.getHealth s.pool.mem <;> simp
    · rw [advance_calls_ne s hut] at hu
      exact hi.collect u healthy' rest' hu

/-- The list a call writes is right for the flags at the time of the write. -/
theorem raceInv_write {s : Race} (hi : RaceInv s) {t : Nat} {healthy : List Backend}
    (h : s.calls t = some (.collect healthy [])) : RaceInv (s.advance t (.collect healthy [])) := by
  have hother : ∀ u phase, (s.advance t (.collect healthy [])).calls u = some phase → s.calls u = some phase := by
    intro u phase hu
    by_cases hut : u = t
    · rw [hut] at hu; exact absurd ((setCall_self _ t _).symm.trans hu) (by simp)
    · rwa [advance_calls_ne s hut] at hu
  refine ⟨fun u c flag hu => hi.store u c flag (hother u _ hu),
    fun u healthy' rest hu => hi.collect u healthy' rest (hother u _ hu), .inl ?_⟩
  obtain ⟨done, hdone, hlist⟩ := hi.collect t healthy [] h
  rw [List.append_nil] at hdone
  show healthy = s.pool.backends.filter _
  rw [hdone]; exact hlist

theorem raceInv_next {s : Race} (hi : RaceInv s) (a : Act) (hc : NoOvertake s a) : RaceInv (s.next a) := by
  cases a with
  | invoke t op => exact raceInv_invoke hi t op
  | step t =>
    rcases h : s.calls t with _ | phase
    · simpa only [Race.next, h] using hi
    · simp only [Race.next, h]
      match phase, h with
      | .store b flag, h => exact raceInv_store hi h hc
      | .collect healthy (b :: rest), h => exact raceInv_read hi h
      | .collect healthy [], h => exact raceInv_write hi h

/-- In every interleaving of mark calls whose stores overtake no reader, whenever no call is in
progress the healthy backends are exactly the pool's backends with a true flag, in pool order. -/
theorem healthyBackends_of_noOvertake (p : BackendPool) (hp : p.Synced) (acts : List Act)
    (hc : Along raceStep NoOvertake (.start p) acts) :
    let s := (run raceStep (.start p) acts).2
    s.Quiescent → s.pool.healthyBackends = s.pool.allBackends.filter (·.getHealth s.pool.mem) := by
  intro s hq
  have hi : RaceInv (run raceStep (.start p) acts).2 :=
    inv_run RaceInv (fun _ a hi hc => raceInv_next hi a hc) acts _ (raceInv_start hp) hc
  rcases hi.cache with h | ⟨t, healthy, rest, h⟩
  · exact h
  · rw [hq t] at h; cases h

/-- Calls made one at a time, as by the health checker's task, never overtake. -/
theorem along_one_caller (p : BackendPool) (t : Nat) (acts : List Act) (h : ∀ a ∈ acts, a.caller = t) :
    Along raceStep NoOvertake (.start p) acts := by
  let I : Race → Prop := fun s => ∀ u, u ≠ t → s.calls u = none
  have hstep : ∀ (s : Race) (a : Act), I s → a.caller = t → I (raceStep s a).2 := by
    intro s a hs ha u hu
    cases a with
    | invoke t' op =>
      cases (show t' = t from ha)
      simp only [raceStep, Race.next]
      split
      · rw [setCall_ne _ hu]; exact hs u hu
      · exact hs u hu
    | step t' =>
      cases (show t' = t from ha)
      simp only [raceStep, Race.next]
      split
      · exact hs u hu
      · rw [advance_calls_ne s hu]; exact hs u hu
  refine along_of_inv I hstep (fun s a hs ha => ?_) acts _ (fun _ _ => rfl) (along_of_forall acts _ h)
  intro t' b flag hat _ _ u healthy rest hu hcall
  subst hat
  cases (show t' = t from ha)
  rw [hs u hu] at hcall; cases hcall

/-! ## A stale list written last -/

theorem healthyBackends_mark_first :
    let s := (run raceStep (.start .pair)
      [.invoke 0 (.markUnhealthy 0), .step 0, .step 0, .step 0, .step 0]).2
    s.pool.healthyBackends = s.pool.allBackends.filter (·.getHealth s.pool.mem) :=
  healthyBackends_of_noOvertake .pair rfl _ (along_one_caller .pair 0 _ (by decide))
    fun t => by cases t <;> rfl

/-- Caller 0 marks the first backend and reads both flags; caller 1 marks the second and writes the
empty list; then caller 0 writes the second backend back. -/
def staleWrite : List Act :=
  [.invoke 0 (.markUnhealthy 0), .step 0, .step 0, .step 0,
    .invoke 1 (.markUnhealthy 1), .step 1, .step 1, .step 1, .step 1, .step 0]

/-- After `staleWrite` no call is in progress, both flags are false, and the second backend is
still listed as healthy. -/
theorem staleWrite_out_of_sync :
    let s := (run raceStep (.start .pair) staleWrite).2
    s.Quiescent ∧ s.pool.healthyBackends ≠ s.pool.allBackends.filter (·.getHealth s.pool.mem) := by
  refine ⟨fun t => ?_, by decide⟩
  rcases t with _ | _ | t <;> rfl

end Gungho.Pool
