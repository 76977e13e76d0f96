/-
The public operations that can change a backend's health: the four mark methods of the pool, which
rebuild the cache, and `Backend::set_health`, which any holder of an `Arc<Backend>` may call on a
backend of `all_backends()` or of a snapshot, and which does not.
-/
import Gungho.Lib.Run
import Gungho.Pool.Backend

namespace Gungho.Pool

open Gungho.Lib

/-! ## The operations -/

/-- A pool and the snapshots taken of its healthy list. -/
structure Handles where
  pool : BackendPool
  snapshots : List (List Backend)

def Handles.start (p : BackendPool) : Handles := ⟨p, []⟩

/-- Where a caller got its `Arc<Backend>` from. -/
inductive Handle where
  | all (index : Nat)
  | snapshot (number index : Nat)
  deriving DecidableEq, Repr

def Handle.backend (s : Handles) : Handle → Option Backend
  | .all index => s.pool.allBackends[index]?
  | .snapshot number index => (s.snapshots[number]?.getD [])[index]?

inductive HealthOp where
  | mark (op : MarkOp)
  | snapshot
  | setHealth (handle : Handle) (healthy : Bool)
  deriving DecidableEq, Repr

def HealthOp.apply (s : Handles) : HealthOp → Handles
  | .mark op => { s with pool := (op.apply s.pool).2 }
  | .snapshot => { s with snapshots := s.snapshots ++ [s.pool.healthyBackends] }
  | .setHealth handle healthy =>
    match handle.backend s with
    | none => s
    | some b => { s with pool := { s.pool with mem := b.setHealth healthy s.pool.mem } }

/-- One operation; the output is the pool after it. -/
def operate (s : Handles) (op : HealthOp) : BackendPool × Handles := ((op.apply s).pool, op.apply s)

/-! ## The cache after an operation -/

/-- The operation stores no flag past the cache: a `set_health` stores the value the flag has. -/
def KeepsFlag (s : Handles) : HealthOp → Prop
  | .setHealth handle healthy => ∀ b, handle.backend s = some b → healthy = b.getHealth s.pool.mem
  | _ => True

/-- The cache is in sync and every handle leads to a backend of the pool. -/
structure HandlesInv (s : Handles) : Prop where
  synced : s.pool.Synced
  snapshots : ∀ slice ∈ s.snapshots, ∀ b ∈ slice, b ∈ s.pool.backends

theorem handle_mem {s : Handles} (h : HandlesInv s) {handle : Handle} {b : Backend}
    (hb : handle.backend s = some b) : b ∈ s.pool.backends := by
  cases handle with
  | all index => exact List.mem_of_getElem? hb
  | snapshot number index =>
    have hmem := List.mem_of_getElem? hb
    rcases hs : s.snapshots[number]? with _ | slice
    · rw [hs] at hmem; simp at hmem
    · rw [hs] at hmem
      exact h.snapshots slice (List.mem_of_getElem? hs) b hmem

/-- Storing the value a flag has changes nothing. -/
theorem setHealth_getHealth (b : Backend) (m : Mem) : b.setHealth (b.getHealth m) m = m := by
  have hflags : (fun i => if i = b.id then b.getHealth m else m.healthy i) = m.healthy := by
    funext i
    split
    · rename_i h; rw [h]; rfl
    · rfl
  unfold Backend.setHealth
  rw [hflags]

/-- A direct store leaves the cache in sync exactly when it stores the value the flag has. -/
theorem setHealth_synced_iff {p : BackendPool} (hp : p.Synced) {b : Backend} (hb : b ∈ p.backends) (v : Bool) :
    BackendPool.Synced { p with mem := b.setHealth v p.mem } ↔ v = b.getHealth p.mem := by
  constructor
  · intro h
    have hlist : p.backends.filter (·.getHealth p.mem) = p.backends.filter (·.getHealth (b.setHealth v p.mem)) :=
      hp.symm.trans h
    have hmem := congrArg (b ∈ ·) hlist
    simp only [List.mem_filter, hb, true_and, Backend.getHealth_setHealth_self, eq_iff_iff] at hmem
    exact (Bool.eq_iff_iff.2 hmem).symm
  · rintro rfl
    rw [setHealth_getHealth]
    exact hp

theorem handlesInv_apply {s : Handles} (h : HandlesInv s) (op : HealthOp) (hc : KeepsFlag s op) :
    HandlesInv (op.apply s) := by
  cases op with
  | mark op =>
    show HandlesInv { s with pool := (op.apply s.pool).2 }
    rw [op.apply_eq]
    exact ⟨s.pool.mark_synced h.synced _ _, by simpa only [BackendPool.mark_backends] using h.snapshots⟩
  | snapshot =>
    refine ⟨h.synced, fun slice hslice b hb => ?_⟩
    rcases List.mem_append.1 hslice with hold | hnew
    · exact h.snapshots slice hold b hb
    · rw [List.mem_singleton.1 hnew] at hb
      have hcache : b ∈ s.pool.healthyCache := hb
      rw [h.synced] at hcache
      exact List.mem_of_mem_filter hcache
  | setHealth handle healthy =>
    rcases hb : handle.backend s with _ | b
    · simpa only [HealthOp.apply, hb] using h
    · simp only [HealthOp.apply, hb]
      exact ⟨(setHealth_synced_iff h.synced (handle_mem h hb) healthy).2 (hc b hb), h.snapshots⟩

/-- After an operation the cache is in sync exactly when the operation stored no flag past it. -/
theorem apply_synced_iff {s : Handles} (h : HandlesInv s) (op : HealthOp) :
    (op.apply s).pool.Synced ↔ KeepsFlag s op := by
  refine ⟨fun hsync => ?_, fun hc => (handlesInv_apply h op hc).synced⟩
  cases op with
  | mark op => trivial
  | snapshot => trivial
  | setHealth handle healthy =>
    intro b hb
    rw [HealthOp.apply, hb] at hsync
    exact (setHealth_synced_iff h.synced (handle_mem h hb) healthy).1 hsync

end Gungho.Pool
