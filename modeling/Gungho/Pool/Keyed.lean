/-
The pool as a map from address to health. The mark methods look a backend up by position or by
address; over distinct addresses both are one write to a map, and `healthy_backends()` lists the
keys whose flag is raised. The cache is an `Arc` behind a lock: a rebuild allocates a new list and
leaves the lists that callers hold as they are.
-/
import Gungho.Lib.FlagMap
import Gungho.Lib.Run
import Gungho.Pool.Distinct

namespace Gungho.Pool

open Gungho.Lib Gungho.Net

/-! ## Calls of the pool -/

/-- A pool in use: the healthy lists allocated so far, the one behind the lock, and the clones of its
`Arc` that `healthy_backends` gave out. -/
structure Held where
  pool : BackendPool
  lists : List (List Backend)
  cached : Nat
  snapshots : List Nat

def Held.start (p : BackendPool) : Held := ⟨p, [p.healthyCache], 0, []⟩

/-- The list behind an `Arc`. -/
def Held.read (s : Held) (arc : Nat) : List Backend := s.lists[arc]?.getD []

inductive PoolCall where
  | mark (op : MarkOp)
  | healthyBackends
  deriving DecidableEq, Repr

/-- A mark that found its backend stores the rebuilt list as a new `Arc`. -/
def PoolCall.apply (s : Held) : PoolCall → Option Unit × Held
  | .mark op =>
    match op.apply s.pool with
    | (none, p) => (none, { s with pool := p })
    | (some (), p) => (some (), { s with pool := p, lists := s.lists ++ [p.healthyCache], cached := s.lists.length })
  | .healthyBackends => (some (), { s with snapshots := s.snapshots ++ [s.cached] })

/-! ## The map -/

/-- The calls on a map from address to health and the snapshots taken of it. -/
structure AddrMap where
  health : FlagMap SocketAddr
  snapshots : List (List SocketAddr)

def MarkOp.onMap (m : FlagMap SocketAddr) : MarkOp → Option Unit × FlagMap SocketAddr
  | .markHealthy index => m.setAt index true
  | .markUnhealthy index => m.setAt index false
  | .markHealthyByAddr addr => m.set addr true
  | .markUnhealthyByAddr addr => m.set addr false

def PoolCall.onMap (a : AddrMap) : PoolCall → Option Unit × AddrMap
  | .mark op => ((op.onMap a.health).1, { a with health := (op.onMap a.health).2 })
  | .healthyBackends => (some (), { a with snapshots := a.snapshots ++ [a.health.raised] })

/-- No backend of the pool has the address. -/
theorem getHealthByAddr_eq_none {p : BackendPool} {addr : SocketAddr} :
    p.getHealthByAddr addr = none ↔ addr ∉ p.backends.map (·.addr) := by
  simp [BackendPool.getHealthByAddr, List.find?_eq_none]

/-- The map a pool stands for. -/
def BackendPool.addrMap (p : BackendPool) (hn : (p.backends.map (·.addr)).Nodup) : AddrMap where
  health := ⟨p.backends.map (·.addr), hn, p.getHealthByAddr, fun _ => getHealthByAddr_eq_none⟩
  snapshots := []

/-- The pool in use stands for the map. -/
structure Represents (s : Held) (a : AddrMap) : Prop where
  keys : a.health.keys = s.pool.backends.map (·.addr)
  flag : a.health.flag = s.pool.getHealthByAddr
  synced : s.pool.Synced
  cached : s.lists[s.cached]? = some s.pool.healthyBackends
  alloc : ∀ arc ∈ s.snapshots, arc < s.lists.length
  snapshots : s.snapshots.map (fun arc => (s.read arc).map (·.addr)) = a.snapshots

namespace Represents

variable {s : Held} {a : AddrMap}

theorem distinct (h : Represents s a) : (s.pool.backends.map (·.addr)).Nodup := h.keys ▸ a.health.nodup

/-- The cached list has the raised addresses, in pool order. -/
theorem raised (h : Represents s a) : s.pool.healthyBackends.map (·.addr) = a.health.raised := by
  have hcache : s.pool.healthyBackends = s.pool.backends.filter (·.getHealth s.pool.mem) := h.synced
  unfold FlagMap.raised
  rw [hcache, h.keys, List.filter_map, h.flag]
  refine congrArg (List.map _) (List.filter_congr fun b hb => ?_)
  simp [getHealthByAddr_of_nodup h.distinct hb]

end Represents

/-! ## One call -/

namespace MarkOp

/-- The index is out of range, or no backend has the address. -/
def Absent (backends : List Backend) : MarkOp → Prop
  | .markHealthy index => backends.length ≤ index
  | .markUnhealthy index => backends.length ≤ index
  | .markHealthyByAddr addr => ∀ b ∈ backends, b.addr ≠ addr
  | .markUnhealthyByAddr addr => ∀ b ∈ backends, b.addr ≠ addr

theorem target_eq_none_iff (backends : List Backend) (op : MarkOp) :
    op.target backends = none ↔ op.Absent backends := by
  cases op <;> simp [target, Absent, List.find?_eq_none]

theorem target_mem {backends : List Backend} {op : MarkOp} {b : Backend} (h : op.target backends = some b) :
    b ∈ backends := by
  cases op with
  | markHealthy index => exact List.mem_of_getElem? h
  | markUnhealthy index => exact List.mem_of_getElem? h
  | markHealthyByAddr addr => exact List.mem_of_find?_eq_some h
  | markUnhealthyByAddr addr => exact List.mem_of_find?_eq_some h

/-- A mark that finds no backend. -/
theorem apply_absent {p : BackendPool} {op : MarkOp} (h : op.target p.backends = none) : op.apply p = (none, p) := by
  rw [op.apply_eq, h]; rfl

/-- A mark that finds the backend `b`. -/
theorem apply_present {p : BackendPool} {op : MarkOp} {b : Backend} (h : op.target p.backends = some b) :
    op.apply p = (some (), (p.mark (some b) op.flag).2) := by
  rw [op.apply_eq, h]; rfl

theorem onMap_absent {m : FlagMap SocketAddr} {backends : List Backend} {op : MarkOp}
    (hkeys : m.keys = backends.map (·.addr)) (h : op.Absent backends) : op.onMap m = (none, m) := by
  have hpos : ∀ index v, backends.length ≤ index → m.setAt index v = (none, m) := fun index v hi => by
    have hnone : m.keys[index]? = none := by rw [hkeys]; simpa using hi
    unfold FlagMap.setAt
    rw [hnone]
  have haddr : ∀ addr v, (∀ b ∈ backends, b.addr ≠ addr) → m.set addr v = (none, m) := fun addr v ha =>
    FlagMap.set_absent (by rw [hkeys]; simpa using ha) v
  cases op with
  | markHealthy index => exact hpos index true h
  | markUnhealthy index => exact hpos index false h
  | markHealthyByAddr addr => exact haddr addr true h
  | markUnhealthyByAddr addr => exact haddr addr false h

theorem onMap_present {m : FlagMap SocketAddr} {backends : List Backend} {op : MarkOp} {b : Backend}
    (hkeys : m.keys = backends.map (·.addr)) (h : op.target backends = some b) :
    op.onMap m = m.set b.addr op.flag := by
  have hpos : ∀ index v, backends[index]? = some b → m.setAt index v = m.set b.addr v := fun index v hi => by
    have hkey : m.keys[index]? = some b.addr := by rw [hkeys, List.getElem?_map, hi, Option.map_some]
    unfold FlagMap.setAt
    rw [hkey]
  have haddr : ∀ addr, backends.find? (·.addr = addr) = some b → addr = b.addr := fun addr hf => by
    have hb : b.addr = addr := by simpa using List.find?_some hf
    exact hb.symm
  cases op with
  | markHealthy index => exact hpos index true h
  | markUnhealthy index => exact hpos index false h
  | markHealthyByAddr addr => rw [haddr addr h]; rfl
  | markUnhealthyByAddr addr => rw [haddr addr h]; rfl

end MarkOp

/-- A mark writes the map at the address of its target. -/
theorem getHealthByAddr_mark {p : BackendPool} (hn : (p.backends.map (·.addr)).Nodup) {b : Backend}
    (hb : b ∈ p.backends) (v : Bool) :
    (p.mark (some b) v).2.getHealthByAddr = Function.update p.getHealthByAddr b.addr (some v) := by
  have hbackends := p.mark_backends (some b) v
  funext addr
  by_cases haddr : addr ∈ p.backends.map (·.addr)
  · obtain ⟨c, hc, rfl⟩ := List.mem_map.1 haddr
    rw [getHealthByAddr_of_nodup (hbackends ▸ hn) (hbackends ▸ hc), p.getHealth_mark hb hc]
    by_cases hcb : c = b
    · rw [if_pos hcb, hcb, Function.update_self]
    · have hne : c.addr ≠ b.addr := fun he => hcb (List.inj_on_of_nodup_map hn hc hb he)
      rw [if_neg hcb, Function.update_of_ne hne, getHealthByAddr_of_nodup hn hc]
  · have hne : addr ≠ b.addr := fun he => haddr (he ▸ List.mem_map_of_mem hb)
    rw [Function.update_of_ne hne, getHealthByAddr_eq_none.2 haddr]
    exact getHealthByAddr_eq_none.2 (hbackends ▸ haddr)

/-- The cached list around the target of a mark, before it and after it. -/
theorem healthyBackends_mark {p : BackendPool} (hp : p.Synced) {b : Backend} (hb : b ∈ p.backends) (v : Bool) :
    ∃ pre post, p.backends = pre ++ b :: post ∧
      p.healthyBackends = pre.filter (·.getHealth p.mem) ++ (if b.getHealth p.mem then [b] else []) ++
        post.filter (·.getHealth p.mem) ∧
      (p.mark (some b) v).2.healthyBackends = pre.filter (·.getHealth p.mem) ++ (if v then [b] else []) ++
        post.filter (·.getHealth p.mem) := by
  obtain ⟨pre, post, hsplit⟩ := List.append_of_mem hb
  have hn : (pre ++ b :: post).Nodup := hsplit ▸ p.backends_nodup
  have hbefore : p.healthyBackends = p.backends.filter (·.getHealth p.mem) := hp
  have hafter : (p.mark (some b) v).2.healthyBackends = p.backends.filter (·.getHealth (b.setHealth v p.mem)) := rfl
  refine ⟨pre, post, hsplit, ?_, ?_⟩
  · rw [hbefore, hsplit]
    exact filter_middle hn fun _ _ _ => rfl
  · rw [hafter, hsplit, filter_middle hn (p := (·.getHealth p.mem)), Backend.getHealth_setHealth_self]
    intro c hc hcb
    have hid : c.id ≠ b.id := fun he => hcb (p.eq_of_id_eq (hsplit ▸ hc) hb he)
    exact Backend.getHealth_setHealth_of_ne hid v p.mem

/-! ## The simulation -/

namespace PoolCall

/-- A call that marks no backend of the pool. -/
theorem apply_absent {s : Held} {op : MarkOp} (h : op.Absent s.pool.backends) : (mark op).apply s = (none, s) := by
  have hop := MarkOp.apply_absent ((op.target_eq_none_iff s.pool.backends).2 h)
  simp only [apply, hop]

theorem apply_present {s : Held} {op : MarkOp} {b : Backend} (h : op.target s.pool.backends = some b) :
    (mark op).apply s = (some (), { s with
      pool := (s.pool.mark (some b) op.flag).2
      lists := s.lists ++ [(s.pool.mark (some b) op.flag).2.healthyCache]
      cached := s.lists.length }) := by
  simp only [apply, MarkOp.apply_present h]

/-- No call writes to a list that is allocated. -/
theorem lists_prefix (s : Held) (call : PoolCall) : s.lists <+: (call.apply s).2.lists := by
  cases call with
  | healthyBackends => exact List.prefix_refl _
  | mark op =>
    rcases ht : op.target s.pool.backends with _ | b
    · simp only [apply_absent ((op.target_eq_none_iff _).1 ht), List.prefix_refl]
    · rw [apply_present ht]
      exact List.prefix_append _ _

end PoolCall

/-- A list allocated before is read as before. -/
theorem read_of_extends {s s' : Held} (h : s.lists <+: s'.lists) {arc : Nat} (harc : arc < s.lists.length) :
    s'.read arc = s.read arc := by
  obtain ⟨rest, hrest⟩ := h
  unfold Held.read
  rw [← hrest, List.getElem?_append_left harc]

theorem represents_start {p : BackendPool} (hp : p.Synced) (hn : (p.backends.map (·.addr)).Nodup) :
    Represents (.start p) (p.addrMap hn) :=
  ⟨rfl, rfl, hp, rfl, fun _ h => by simp [Held.start] at h, rfl⟩

/-- A call returns what the write to the map returns, and the pool stands for the map after it. -/
theorem represents_apply {s : Held} {a : AddrMap} (h : Represents s a) (call : PoolCall) :
    (call.apply s).1 = (call.onMap a).1 ∧ Represents (call.apply s).2 (call.onMap a).2 := by
  cases call with
  | healthyBackends =>
    refine ⟨rfl, h.keys, h.flag, h.synced, h.cached, fun arc harc => ?_, ?_⟩
    · rcases List.mem_append.1 harc with hold | hnew
      · exact h.alloc arc hold
      · rw [List.mem_singleton.1 hnew]
        exact (List.getElem?_eq_some_iff.1 h.cached).1
    · have hread : s.read s.cached = s.pool.healthyBackends := by rw [Held.read, h.cached, Option.getD_some]
      show (s.snapshots ++ [s.cached]).map (fun arc => (s.read arc).map (·.addr)) = a.snapshots ++ [a.health.raised]
      rw [List.map_append, h.snapshots, List.map_singleton, hread, h.raised]
  | mark op =>
    rcases ht : op.target s.pool.backends with _ | b
    · have hab := (op.target_eq_none_iff _).1 ht
      rw [PoolCall.apply_absent hab]
      simp only [PoolCall.onMap, MarkOp.onMap_absent h.keys hab]
      exact ⟨trivial, h⟩
    · have hb := MarkOp.target_mem ht
      have hkey : b.addr ∈ a.health.keys := by rw [h.keys]; exact List.mem_map_of_mem hb
      obtain ⟨hret, hflag⟩ := FlagMap.set_present hkey op.flag
      have hpre := PoolCall.lists_prefix s (.mark op)
      rw [PoolCall.apply_present ht] at hpre ⊢
      simp only [PoolCall.onMap, MarkOp.onMap_present h.keys ht, hret, true_and]
      refine ⟨?_, ?_, BackendPool.mark_synced h.synced _ _, ?_, fun arc harc => ?_, ?_⟩
      · rw [FlagMap.set_keys, h.keys, BackendPool.mark_backends]
      · rw [hflag, h.flag, getHealthByAddr_mark h.distinct hb]
      · rw [List.getElem?_concat_length]
        rfl
      · exact Nat.lt_of_lt_of_le (h.alloc arc harc) hpre.length_le
      · rw [← h.snapshots]
        exact List.map_congr_left fun arc harc => by rw [read_of_extends hpre (h.alloc arc harc)]

/-! ## Runs -/

/-- How the healthy list follows a flag of `b` that is set to `v`: unchanged when `b` had that health
already, else it gains or loses `b` at its place in pool order. -/
def Follows (p p' : BackendPool) (b : Backend) (v : Bool) : Prop :=
  if b.getHealth p.mem = v then p'.healthyBackends = p.healthyBackends
  else ∃ pre post, p.backends = pre ++ b :: post ∧
    let left := pre.filter (·.getHealth p.mem)
    let right := post.filter (·.getHealth p.mem)
    p.healthyBackends = left ++ (if v then [] else [b]) ++ right ∧
      p'.healthyBackends = left ++ (if v then [b] else []) ++ right

theorem mark_follows {p : BackendPool} (hp : p.Synced) {b : Backend} (hb : b ∈ p.backends) (v : Bool) :
    Follows p (p.mark (some b) v).2 b v := by
  obtain ⟨pre, post, hsplit, hbefore, hafter⟩ := healthyBackends_mark hp hb v
  unfold Follows
  split
  · rename_i hv
    rw [hafter, hbefore, hv]
  · rename_i hv
    refine ⟨pre, post, hsplit, ?_, hafter⟩
    rw [hbefore]
    cases v <;> simp_all

/-- What the next mark does to a pool in use. -/
structure Keyed (s : Held) : Prop where
  byAddr : ∀ index b, s.pool.backends[index]? = some b →
    (PoolCall.mark (.markHealthyByAddr b.addr)).apply s = (PoolCall.mark (.markHealthy index)).apply s ∧
    (PoolCall.mark (.markUnhealthyByAddr b.addr)).apply s = (PoolCall.mark (.markUnhealthy index)).apply s
  none_iff : ∀ op, ((PoolCall.mark op).apply s).1 = none ↔ op.Absent s.pool.backends
  absent : ∀ op, op.Absent s.pool.backends → ((PoolCall.mark op).apply s).2 = s
  present : ∀ op b, op.target s.pool.backends = some b →
    let p' := ((PoolCall.mark op).apply s).2.pool
    p'.backends = s.pool.backends ∧ b.getHealth p'.mem = op.flag ∧
      (∀ c ∈ s.pool.backends, c ≠ b → c.getHealth p'.mem = c.getHealth s.pool.mem) ∧ Follows s.pool p' b op.flag

theorem Represents.keyed {s : Held} {a : AddrMap} (h : Represents s a) : Keyed s := by
  refine ⟨fun index b hi => ?_, fun op => ?_, fun op hop => ?_, fun op b ht => ?_⟩
  · have hf := find?_addr_of_nodup h.distinct (List.mem_of_getElem? hi)
    have hsame : ∀ op op' : MarkOp, op.target s.pool.backends = some b → op'.target s.pool.backends = some b →
        op.flag = op'.flag → (PoolCall.mark op).apply s = (PoolCall.mark op').apply s := fun op op' h h' hv => by
      rw [PoolCall.apply_present h, PoolCall.apply_present h', hv]
    exact ⟨hsame (.markHealthyByAddr b.addr) (.markHealthy index) hf hi rfl,
      hsame (.markUnhealthyByAddr b.addr) (.markUnhealthy index) hf hi rfl⟩
  · constructor
    · rcases ht : op.target s.pool.backends with _ | b
      · exact fun _ => (op.target_eq_none_iff _).1 ht
      · rw [PoolCall.apply_present ht]
        simp
    · intro hop
      rw [PoolCall.apply_absent hop]
  · rw [PoolCall.apply_absent hop]
  · have hb := MarkOp.target_mem ht
    rw [PoolCall.apply_present ht]
    refine ⟨BackendPool.mark_backends _ _ _, ?_, fun c hc hcb => ?_, mark_follows h.synced hb op.flag⟩
    · rw [s.pool.getHealth_mark hb hb, if_pos rfl]
    · rw [s.pool.getHealth_mark hb hc, if_neg hcb]

/-- The lists that are allocated stay as they are for the whole run. -/
theorem lists_prefix_run (calls : List PoolCall) (s : Held) : s.lists <+: (run PoolCall.apply s calls).2.lists :=
  inv_run (C := fun _ _ => True) (fun s' : Held => s.lists <+: s'.lists)
    (fun s' call hs _ => hs.trans (PoolCall.lists_prefix s' call)) calls s (List.prefix_refl _) (along_true calls s)

/-- Over distinct addresses every run of calls is a run of writes to a map from address to health. -/
theorem represents_run {p : BackendPool} (hp : p.Synced) (hn : (p.backends.map (·.addr)).Nodup)
    (calls : List PoolCall) :
    (run PoolCall.apply (.start p) calls).1 = (run PoolCall.onMap (p.addrMap hn) calls).1 ∧
      Represents (run PoolCall.apply (.start p) calls).2 (run PoolCall.onMap (p.addrMap hn) calls).2 := by
  have hstep : ∀ s a call, Represents s a → True →
      (PoolCall.apply s call).1 = (PoolCall.onMap a (id call)).1 ∧
        Represents (PoolCall.apply s call).2 (PoolCall.onMap a (id call)).2 :=
    fun s a call h _ => represents_apply h call
  have hsim := sim_run hstep calls (.start p) (p.addrMap hn) (represents_start hp hn) (along_true calls _)
  rw [List.map_id, List.forall₂_eq_eq_eq] at hsim
  exact hsim

/-- A pool in sync, as every constructor and every mark leaves it, is a map from address to health. Every
run of the mark calls and of `healthy_backends` returns what the run of writes to the map returns, and in
every state it reaches the next mark writes one flag, by position and by address alike, or finds no backend
and changes nothing. The snapshots taken in the run stay as they were taken. -/
theorem pool_behaves_as_map {p : BackendPool} (hp : p.Synced) (hn : (p.backends.map (·.addr)).Nodup)
    (calls : List PoolCall) :
    let s := (run PoolCall.apply (.start p) calls).2
    let a := (run PoolCall.onMap (p.addrMap hn) calls).2
    (run PoolCall.apply (.start p) calls).1 = (run PoolCall.onMap (p.addrMap hn) calls).1 ∧
      (s.pool.getHealthByAddr = a.health.flag ∧ s.pool.healthyBackends.map (·.addr) = a.health.raised) ∧ Keyed s ∧
      ∀ more, ∀ arc ∈ s.snapshots, (run PoolCall.apply s more).2.read arc = s.read arc := by
  obtain ⟨houtputs, hrep⟩ := represents_run hp hn calls
  exact ⟨houtputs, ⟨hrep.flag.symm, hrep.raised⟩, hrep.keyed, fun more arc harc =>
    read_of_extends (lists_prefix_run more _) (hrep.alloc arc harc)⟩

/-- A snapshot of two backends, then the second is marked unhealthy twice. -/
theorem pool_behaves_as_map_pair :
    let s := (run PoolCall.apply (.start .pair)
      [.healthyBackends, .mark (.markUnhealthy 1), .mark (.markUnhealthyByAddr (.v4 ⟨10, 0, 0, 2⟩ 80))]).2
    Keyed s ∧ ∀ more, ∀ arc ∈ s.snapshots, (run PoolCall.apply s more).2.read arc = s.read arc :=
  (pool_behaves_as_map (BackendPool.new_synced _ _ _) (by decide) _).2.2

end Gungho.Pool
