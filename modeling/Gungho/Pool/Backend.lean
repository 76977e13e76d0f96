/-
Backends and the backend pool: `backend.rs`. A `Backend` value stands for an `Arc<Backend>`: its
allocation (`id`) and the fields that never change. The two atomics of every allocation are cells
of the shared memory `Mem`, so a snapshot of the healthy list keeps its entries while their
health changes.
-/
import Gungho.Config
import Mathlib.Algebra.Group.Nat.Defs
import Mathlib.Data.List.Nodup
import Mathlib.Data.List.Range

namespace Gungho.Pool

open Gungho.Net

/-! ## Backends -/

structure Backend where
  id : Nat
  addr : SocketAddr
  weight : UInt32
  deriving DecidableEq, Repr

/-- The atomics of the backends by allocation: `healthy` and `active_connections`. -/
structure Mem where
  healthy : Nat → Bool
  activeConnections : Nat → Nat

/-- The atomics as `Backend::from_config` initialises them. -/
def Mem.init : Mem := ⟨fun _ => true, fun _ => 0⟩

namespace Backend

def getHealth (b : Backend) (m : Mem) : Bool := m.healthy b.id

def setHealth (b : Backend) (healthy : Bool) (m : Mem) : Mem :=
  { m with healthy := fun i => if i = b.id then healthy else m.healthy i }

def getActiveConnections (b : Backend) (m : Mem) : Nat := m.activeConnections b.id

/-- `fetch_add(1)` on a `usize` of `w` bits. -/
def incrementConnections (w : Nat) (b : Backend) (m : Mem) : Mem :=
  { m with activeConnections := fun i =>
      if i = b.id then (m.activeConnections i + 1) % 2 ^ w else m.activeConnections i }

/-- `fetch_sub(1)` on a `usize` of `w` bits. -/
def decrementConnections (w : Nat) (b : Backend) (m : Mem) : Mem :=
  { m with activeConnections := fun i =>
      if i = b.id then (m.activeConnections i + (2 ^ w - 1)) % 2 ^ w else m.activeConnections i }

@[simp] theorem getHealth_setHealth_self (b : Backend) (v : Bool) (m : Mem) :
    b.getHealth (b.setHealth v m) = v := by
  simp [getHealth, setHealth]

theorem getHealth_setHealth_of_ne {b c : Backend} (h : c.id ≠ b.id) (v : Bool) (m : Mem) :
    c.getHealth (b.setHealth v m) = c.getHealth m := by
  simp [getHealth, setHealth, h]

theorem getActiveConnections_incrementConnections (w : Nat) (b c : Backend) (m : Mem) :
    c.getActiveConnections (b.incrementConnections w m) =
      if c.id = b.id then (c.getActiveConnections m + 1) % 2 ^ w else c.getActiveConnections m := rfl

theorem getActiveConnections_decrementConnections (w : Nat) (b c : Backend) (m : Mem) :
    c.getActiveConnections (b.decrementConnections w m) =
      if c.id = b.id then (c.getActiveConnections m + (2 ^ w - 1)) % 2 ^ w else c.getActiveConnections m := rfl

end Backend

/-! ## The pool -/

inductive BackendPoolError where
  | noBackends
  | addrParseError
  deriving DecidableEq, Repr

def BackendPoolError.message : BackendPoolError → String
  | .noBackends => "No backends configured"
  | .addrParseError => "Invalid backend address: invalid socket address syntax"

/-- The pool's own list, the cached healthy list and the atomics. Every entry is an allocation of
its own. -/
structure BackendPool where
  backends : List Backend
  healthyCache : List Backend
  mem : Mem
  arcs : (backends.map Backend.id).Nodup

def Backend.fromConfig (id : Nat) (config : BackendConfig) : Except BackendPoolError Backend :=
  match SocketAddr.parse config.addr with
  | some addr => .ok ⟨id, addr, config.weight⟩
  | none => .error .addrParseError

/-- `map(Backend::from_config).collect::<Result<Vec<_>, _>>()`, each backend its own allocation. -/
def collectBackends (id : Nat) : List BackendConfig → Except BackendPoolError (List Backend)
  | [] => .ok []
  | c :: cs =>
    match Backend.fromConfig id c with
    | .error e => .error e
    | .ok b =>
      match collectBackends (id + 1) cs with
      | .error e => .error e
      | .ok bs => .ok (b :: bs)

theorem collectBackends_ids {cs : List BackendConfig} {id : Nat} {bs : List Backend}
    (h : collectBackends id cs = .ok bs) : bs.map Backend.id = List.range' id cs.length := by
  induction cs generalizing id bs with
  | nil => cases h; rfl
  | cons c cs ih =>
    unfold collectBackends at h
    split at h
    · cases h
    · rename_i b hb
      split at h
      · cases h
      · rename_i bs' hbs
        cases h
        unfold Backend.fromConfig at hb
        split at hb <;> cases hb
        rw [List.map_cons, ih hbs, List.length_cons, List.range'_succ]

namespace BackendPool

/-- `BackendPool::new`: the cache is filtered from the flags. -/
def new (m : Mem) (backends : List Backend) (arcs : (backends.map Backend.id).Nodup) : BackendPool :=
  { backends, healthyCache := backends.filter (·.getHealth m), mem := m, arcs }

/-- Two backends of weight 1, both healthy. -/
def pair : BackendPool :=
  new .init [⟨0, .v4 ⟨10, 0, 0, 1⟩ 80, 1⟩, ⟨1, .v4 ⟨10, 0, 0, 2⟩ 80, 1⟩] (by decide)

/-- `BackendPool::from_config`. -/
def fromConfig (backends : List BackendConfig) : Except BackendPoolError BackendPool :=
  if backends.isEmpty then .error .noBackends
  else
    match h : collectBackends 0 backends with
    | .error e => .error e
    | .ok bs => .ok
      { backends := bs
        healthyCache := bs
        mem := .init
        arcs := by rw [collectBackends_ids h]; exact List.nodup_range' }

def allBackends (p : BackendPool) : List Backend := p.backends

def getHealthByAddr (p : BackendPool) (addr : SocketAddr) : Option Bool :=
  (p.backends.find? (·.addr = addr)).map (·.getHealth p.mem)

def healthyBackends (p : BackendPool) : List Backend := p.healthyCache

def rebuildHealthyCache (p : BackendPool) : BackendPool :=
  { p with healthyCache := p.backends.filter (·.getHealth p.mem) }

/-- What the four mark methods share: `?` on the backend they look up, the store, the rebuild. -/
def mark (p : BackendPool) (target : Option Backend) (healthy : Bool) : Option Unit × BackendPool :=
  match target with
  | none => (none, p)
  | some b => (some (), { p with mem := b.setHealth healthy p.mem }.rebuildHealthyCache)

def markHealthy (p : BackendPool) (index : Nat) : Option Unit × BackendPool := p.mark p.backends[index]? true

def markUnhealthy (p : BackendPool) (index : Nat) : Option Unit × BackendPool := p.mark p.backends[index]? false

def markHealthyByAddr (p : BackendPool) (addr : SocketAddr) : Option Unit × BackendPool :=
  p.mark (p.backends.find? (·.addr = addr)) true

def markUnhealthyByAddr (p : BackendPool) (addr : SocketAddr) : Option Unit × BackendPool :=
  p.mark (p.backends.find? (·.addr = addr)) false

end BackendPool

/-- A call of one of the four mark methods. -/
inductive MarkOp where
  | markHealthy (index : Nat)
  | markUnhealthy (index : Nat)
  | markHealthyByAddr (addr : SocketAddr)
  | markUnhealthyByAddr (addr : SocketAddr)
  deriving DecidableEq, Repr

namespace MarkOp

/-- The backend the call looks up. -/
def target (backends : List Backend) : MarkOp → Option Backend
  | .markHealthy index => backends[index]?
  | .markUnhealthy index => backends[index]?
  | .markHealthyByAddr addr => backends.find? (·.addr = addr)
  | .markUnhealthyByAddr addr => backends.find? (·.addr = addr)

/-- The flag the call stores. -/
def flag : MarkOp → Bool
  | .markHealthy _ => true
  | .markUnhealthy _ => false
  | .markHealthyByAddr _ => true
  | .markUnhealthyByAddr _ => false

def apply (p : BackendPool) : MarkOp → Option Unit × BackendPool
  | .markHealthy index => p.markHealthy index
  | .markUnhealthy index => p.markUnhealthy index
  | .markHealthyByAddr addr => p.markHealthyByAddr addr
  | .markUnhealthyByAddr addr => p.markUnhealthyByAddr addr

theorem apply_eq (p : BackendPool) (op : MarkOp) : op.apply p = p.mark (op.target p.backends) op.flag := by
  cases op <;> rfl

end MarkOp

/-! ## What a mark does -/

namespace BackendPool

/-- The cache lists exactly the healthy backends, in pool order. -/
def Synced (p : BackendPool) : Prop := p.healthyCache = p.backends.filter (·.getHealth p.mem)

theorem new_synced (m : Mem) (bs : List Backend) (h : (bs.map Backend.id).Nodup) : (new m bs h).Synced := rfl

theorem rebuild_synced (p : BackendPool) : p.rebuildHealthyCache.Synced := rfl

@[simp] theorem mark_some_mem (p : BackendPool) (b : Backend) (v : Bool) :
    (p.mark (some b) v).2.mem = b.setHealth v p.mem := rfl

/-- A mark changes neither the pool's backends nor their order. -/
@[simp] theorem mark_backends (p : BackendPool) (t : Option Backend) (v : Bool) :
    (p.mark t v).2.backends = p.backends := by
  cases t <;> rfl

/-- A mark leaves the cache in sync: it rebuilds it, or changes nothing. -/
theorem mark_synced {p : BackendPool} (h : p.Synced) (t : Option Backend) (v : Bool) : (p.mark t v).2.Synced := by
  cases t with
  | none => exact h
  | some b => exact rebuild_synced _

/-- One allocation, one entry. -/
theorem eq_of_id_eq (p : BackendPool) {b c : Backend} (hb : b ∈ p.backends) (hc : c ∈ p.backends)
    (h : b.id = c.id) : b = c :=
  List.inj_on_of_nodup_map p.arcs hb hc h

theorem backends_nodup (p : BackendPool) : p.backends.Nodup := p.arcs.of_map

/-- A mark sets the flag of its target and no other flag. -/
theorem getHealth_mark (p : BackendPool) {b c : Backend} (hb : b ∈ p.backends) (hc : c ∈ p.backends) (v : Bool) :
    c.getHealth (p.mark (some b) v).2.mem = if c = b then v else c.getHealth p.mem := by
  rw [mark_some_mem]
  split
  · rename_i h; rw [h, Backend.getHealth_setHealth_self]
  · rename_i h
    exact Backend.getHealth_setHealth_of_ne (fun e => h (p.eq_of_id_eq hc hb e)) v p.mem

end BackendPool

/-! ## Construction from the configuration -/

theorem collectBackends_ok {cs : List BackendConfig} {id : Nat} {bs : List Backend}
    (h : collectBackends id cs = .ok bs) :
    List.Forall₂ (fun b c => SocketAddr.parse c.addr = some b.addr ∧ b.weight = c.weight) bs cs := by
  induction cs generalizing id bs with
  | nil => cases h; exact .nil
  | cons c cs ih =>
    unfold collectBackends at h
    split at h
    · cases h
    · rename_i b hb
      split at h
      · cases h
      · rename_i bs' hbs
        cases h
        unfold Backend.fromConfig at hb
        split at hb
        · rename_i addr haddr
          cases hb
          exact .cons ⟨haddr, rfl⟩ (ih hbs)
        · cases hb

theorem collectBackends_total {cs : List BackendConfig} (h : ∀ c ∈ cs, (SocketAddr.parse c.addr).isSome)
    (id : Nat) : ∃ bs, collectBackends id cs = .ok bs := by
  induction cs generalizing id with
  | nil => exact ⟨[], rfl⟩
  | cons c cs ih =>
    obtain ⟨addr, haddr⟩ := Option.isSome_iff_exists.1 (h c (by simp))
    obtain ⟨bs, hbs⟩ := ih (fun c' hc' => h c' (List.mem_cons_of_mem c hc')) (id + 1)
    refine ⟨⟨id, addr, c.weight⟩ :: bs, ?_⟩
    unfold collectBackends Backend.fromConfig
    rw [haddr]
    simp only [hbs]

namespace BackendPool

/-- A pool as both constructors make it from backends that are all healthy. -/
structure Fresh (p : BackendPool) : Prop where
  healthy : ∀ b ∈ p.backends, b.getHealth p.mem = true
  cache : p.healthyCache = p.backends

theorem Fresh.synced {p : BackendPool} (h : p.Fresh) : p.Synced := by
  unfold Synced
  rw [h.cache, List.filter_eq_self.2 h.healthy]

theorem fromConfig_ok {cs : List BackendConfig} {p : BackendPool} (h : fromConfig cs = .ok p) :
    p.Fresh ∧ cs ≠ [] ∧ p.mem = .init ∧
      List.Forall₂ (fun b c => SocketAddr.parse c.addr = some b.addr ∧ b.weight = c.weight) p.backends cs := by
  unfold fromConfig at h
  split at h
  · cases h
  · rename_i hne
    split at h
    · cases h
    · rename_i bs hbs
      cases h
      exact ⟨⟨fun _ _ => rfl, rfl⟩, by simpa using hne, rfl, collectBackends_ok hbs⟩

theorem fromConfig_of_collect {cs : List BackendConfig} {bs : List Backend} (hne : cs ≠ [])
    (h : collectBackends 0 cs = .ok bs) : ∃ arcs, fromConfig cs = .ok ⟨bs, bs, .init, arcs⟩ := by
  refine ⟨by rw [collectBackends_ids h]; exact List.nodup_range', ?_⟩
  unfold fromConfig
  rw [if_neg (by simpa using hne)]
  split
  · rename_i e he; rw [h] at he; cases he
  · rename_i bs' hbs; rw [h] at hbs; cases hbs; rfl

theorem fromConfig_total {cs : List BackendConfig} (hne : cs ≠ [])
    (h : ∀ c ∈ cs, (SocketAddr.parse c.addr).isSome) : ∃ p, fromConfig cs = .ok p := by
  obtain ⟨bs, hbs⟩ := collectBackends_total h 0
  obtain ⟨arcs, hp⟩ := fromConfig_of_collect hne hbs
  exact ⟨_, hp⟩

theorem fromConfig_pair : fromConfig [⟨"10.0.0.1:80".toList, 1⟩, ⟨"10.0.0.2:80".toList, 1⟩] = .ok pair := by
  have hbs : collectBackends 0 [⟨"10.0.0.1:80".toList, 1⟩, ⟨"10.0.0.2:80".toList, 1⟩] = .ok pair.backends := by
    decide
  obtain ⟨arcs, hp⟩ := fromConfig_of_collect (by simp) hbs
  exact hp

end BackendPool

end Gungho.Pool
