/-
README "stable per client": does IP hash keep a client on its backend while other backends come and
go? The index is the hash modulo the length of the healthy list, and a transition of any other backend
may change that length and the backend's place in the list. A backend keeps all its clients exactly as
long as the length divides the one they were routed on and the place is theirs modulo it.
-/
import Gungho.Lb.Reach
import Gungho.Lib.Residue
import Gungho.Lib.Run

namespace Gungho.Lb

open Gungho.Lib Gungho.Lib.Residue Gungho.Net Gungho.Pool

/-! ## Routing -/

/-- The backend that `IpHash::select` gives a client on the current healthy list. -/
def IpHash.route (p : BackendPool) (client : SocketAddr) : Option Backend :=
  (IpHash.select p.healthyBackends (some client)).bind fun index => p.healthyBackends[index]?

/-- One health transition; the output is the pool after it. -/
def transition (p : BackendPool) (op : MarkOp) : BackendPool × BackendPool := ((op.apply p).2, (op.apply p).2)

def healthyCount (p : BackendPool) : Nat := p.allBackends.countP (·.getHealth p.mem)

/-- The number of healthy backends that come before `b` in pool order. -/
def healthyBefore (p : BackendPool) (b : Backend) : Nat :=
  (p.allBackends.takeWhile (· ≠ b)).countP (·.getHealth p.mem)

/-! ## One state -/

/-- A healthy backend stands in the healthy list after the healthy ones before it, and nowhere else. -/
theorem getElem?_healthyBackends_iff {p : BackendPool} (hp : p.Synced) {b : Backend} (hb : b ∈ p.allBackends)
    (hh : b.getHealth p.mem = true) (i : Nat) : p.healthyBackends[i]? = some b ↔ i = healthyBefore p b := by
  have hlist : p.healthyBackends = p.allBackends.filter (·.getHealth p.mem) := hp
  have hnodup : p.healthyBackends.Nodup := hlist ▸ p.backends_nodup.filter _
  obtain ⟨pre, post, hsplit, hpre⟩ := List.eq_append_cons_of_mem hb
  have hbefore : healthyBefore p b = (pre.filter (·.getHealth p.mem)).length := by
    unfold healthyBefore
    rw [hsplit, List.takeWhile_append_of_pos fun c hc => by simpa using ne_of_mem_of_not_mem hc hpre]
    rw [List.takeWhile_cons_of_neg (by simp), List.append_nil, List.countP_eq_length_filter]
  have hplace : p.healthyBackends[healthyBefore p b]? = some b := by
    rw [hlist, hsplit, List.filter_append, hbefore, List.getElem?_append_right le_rfl, Nat.sub_self]
    rw [List.filter_cons, if_pos hh]
    rfl
  constructor
  · intro hi
    obtain ⟨hlt, hget⟩ := List.getElem?_eq_some_iff.1 hi
    obtain ⟨hlt', hget'⟩ := List.getElem?_eq_some_iff.1 hplace
    exact hnodup.getElem_inj_iff.1 (hget.trans hget'.symm)
  · rintro rfl
    exact hplace

/-- A client is routed to a healthy backend exactly when its hash, modulo the number of healthy
backends, is the number of healthy ones before that backend. -/
theorem route_iff {p : BackendPool} (hp : p.Synced) {b : Backend} (hb : b ∈ p.allBackends)
    (hh : b.getHealth p.mem = true) (client : SocketAddr) :
    IpHash.route p client = some b ↔ IpHash.hashIp client % healthyCount p = healthyBefore p b := by
  have hlist : p.healthyBackends = p.allBackends.filter (·.getHealth p.mem) := hp
  have hmem : b ∈ p.healthyBackends := hlist ▸ List.mem_filter.2 ⟨hb, hh⟩
  have hlen : p.healthyBackends.length = healthyCount p := by
    rw [hlist, healthyCount, List.countP_eq_length_filter]
  have hsel : IpHash.select p.healthyBackends (some client) = some (IpHash.hashIp client % healthyCount p) := by
    unfold IpHash.select
    rw [if_neg (by simpa using List.ne_nil_of_mem hmem), hlen]
    rfl
  unfold IpHash.route
  rw [hsel, Option.bind_some, getElem?_healthyBackends_iff hp hb hh]

/-! ## Every run -/

theorem transition_keeps {p : BackendPool} (hp : p.Synced) (op : MarkOp) :
    (transition p op).2.Synced ∧ (transition p op).2.allBackends = p.allBackends := by
  show (op.apply p).2.Synced ∧ (op.apply p).2.backends = p.backends
  rw [op.apply_eq]
  exact ⟨p.mark_synced hp _ _, p.mark_backends _ _⟩

/-- From `n` healthy backends, `i` of them before this one, to `n'` and `i'`: the number divides the former one and the
place is the former one modulo it. Hashes are below 6271, so a place from there on has no clients, and one whose next
hash would be beyond has clients of one hash only. -/
def KeepsClients (n i n' i' : Nat) : Prop := 6271 ≤ i ∨ i % n' = i' ∧ (n' ∣ n ∨ 6271 ≤ i + n)

instance (n i n' i' : Nat) : Decidable (KeepsClients n i n' i') :=
  inferInstanceAs (Decidable (6271 ≤ i ∨ i % n' = i' ∧ (n' ∣ n ∨ 6271 ≤ i + n)))

/-- The hashes are all the numbers below 6271. -/
theorem forall_hashIp_iff (P : Nat → Prop) : (∀ client, P (IpHash.hashIp client)) ↔ ∀ h < 6271, P h := by
  constructor
  · rintro hP h hlt
    obtain ⟨client, -, rfl⟩ := IpHash.exists_hashIp (.v4 ⟨0, 0, 0, 0⟩ 0) hlt
    exact hP client
  · exact fun hP client => hP _ (IpHash.foldl_step_lt client.ip.octets)

theorem healthyBefore_lt {p : BackendPool} (hp : p.Synced) {b : Backend} (hb : b ∈ p.allBackends)
    (hh : b.getHealth p.mem = true) : healthyBefore p b < healthyCount p := by
  have hlist : p.healthyBackends = p.allBackends.filter (·.getHealth p.mem) := hp
  have hplace := (getElem?_healthyBackends_iff hp hb hh _).2 rfl
  rw [healthyCount, List.countP_eq_length_filter, ← hlist]
  exact (List.getElem?_eq_some_iff.1 hplace).1

/-- In a run of health transitions in which a healthy backend stays healthy, all its clients stay on it exactly when in
every state the number of healthy backends and of those before it keep its clients, as they do where both numbers are
what they were at the start. -/
theorem clients_stay_iff (p : BackendPool) (hp : p.Synced) (b : Backend) (hb : b ∈ p.healthyBackends)
    (ops : List MarkOp) (hstay : ∀ q ∈ (run transition p ops).1, b.getHealth q.mem = true) :
    (∀ client, IpHash.route p client = some b → ∀ q ∈ (run transition p ops).1, IpHash.route q client = some b) ↔
      ∀ q ∈ (run transition p ops).1,
        KeepsClients (healthyCount p) (healthyBefore p b) (healthyCount q) (healthyBefore q b) := by
  have hlist : p.healthyBackends = p.allBackends.filter (·.getHealth p.mem) := hp
  obtain ⟨hmem, hhealthy⟩ := List.mem_filter.1 (hlist ▸ hb)
  have hkeep : ∀ q ∈ (run transition p ops).1, q.Synced ∧ q.allBackends = p.allBackends := by
    refine outputs_run (fun q => q.Synced ∧ q.allBackends = p.allBackends) _ (fun q op hq _ => ?_) ops p ⟨hp, rfl⟩
      (along_true ops p)
    have h := transition_keeps hq.1 op
    exact ⟨⟨h.1, h.2.trans hq.2⟩, h.1, h.2.trans hq.2⟩
  have hroutes : ∀ q ∈ (run transition p ops).1, ∀ client, IpHash.route q client = some b ↔
      IpHash.hashIp client % healthyCount q = healthyBefore q b := fun q hq =>
    route_iff (hkeep q hq).1 ((hkeep q hq).2.symm ▸ hmem) (hstay q hq)
  calc (∀ client, IpHash.route p client = some b → ∀ q ∈ (run transition p ops).1, IpHash.route q client = some b)
      ↔ ∀ q ∈ (run transition p ops).1, ∀ client, IpHash.hashIp client % healthyCount p = healthyBefore p b →
          IpHash.hashIp client % healthyCount q = healthyBefore q b := by
        constructor
        · intro h q hq client hc
          exact (hroutes q hq client).1 (h client ((route_iff hp hmem hhealthy client).2 hc) q hq)
        · intro h client hc q hq
          exact (hroutes q hq client).2 (h q hq client ((route_iff hp hmem hhealthy client).1 hc))
    _ ↔ _ := forall₂_congr fun q hq => by
        rw [forall_hashIp_iff fun h => h % healthyCount p = healthyBefore p b → h % healthyCount q = healthyBefore q b,
          forall_mod_iff (healthyBefore_lt hp hmem hhealthy), KeepsClients]

/-- Three backends, all healthy. -/
def threeBackends : BackendPool :=
  .new .init [⟨0, .v4 ⟨0, 0, 0, 0⟩ 8080, 1⟩, ⟨1, .v4 ⟨0, 0, 0, 1⟩ 8080, 1⟩, ⟨2, .v4 ⟨0, 0, 0, 2⟩ 8080, 1⟩]
    (by decide)

/-- Of two backends the second goes and comes back: one divides two, and the clients of the first stay. -/
theorem clients_stay_first :
    let p := BackendPool.pair
    let first : Backend := ⟨0, .v4 ⟨10, 0, 0, 1⟩ 80, 1⟩
    first ∈ p.healthyBackends ∧ ∀ client, IpHash.route p client = some first →
      ∀ q ∈ (run transition p [.markUnhealthy 1, .markHealthy 1]).1, IpHash.route q client = some first := by
  intro p first
  refine ⟨by decide, (clients_stay_iff p (BackendPool.new_synced ..) first (by decide) _ ?_).2 ?_⟩
  · simp only [run_cons, run_nil, List.forall_mem_cons]
    decide
  · simp only [run_cons, run_nil, List.forall_mem_cons]
    decide

/-- The hash 4863 leaves remainder 0 by three and 1 by two: when the third backend goes, a client of
the first is moved to the second. -/
theorem route_moves :
    let client : SocketAddr := .v4 ⟨192, 168, 1, 3⟩ 1234
    let first : Backend := ⟨0, .v4 ⟨0, 0, 0, 0⟩ 8080, 1⟩
    let states := (run transition threeBackends [.markUnhealthy 2]).1
    IpHash.route threeBackends client = some first ∧ (∀ q ∈ states, first.getHealth q.mem = true) ∧
      ¬ ∀ q ∈ states, IpHash.route q client = some first := by
  intro client first states
  simp only [states, run_cons, run_nil, List.forall_mem_cons]
  decide

end Gungho.Lb
