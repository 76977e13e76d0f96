/-
Session affinity. Under IP hash a request goes to the backend that the pool it finds routes its client to, whatever
the other requests and the mark calls do meanwhile; so requests of one client that find the same healthy list go to
the same backend, from whichever ports they come and whatever they ask for.
-/
import Gungho.Lb.Sticky
import Gungho.Proxy.Handle

namespace Gungho.Proxy

open Gungho.Lib Gungho.Lb Gungho.Net Gungho.Pool

/-- A client's backend depends on the healthy list and the client's IP. -/
theorem route_congr {p p' : BackendPool} (hlist : p.healthyBackends = p'.healthyBackends) {client client' : SocketAddr}
    (hip : client.ip = client'.ip) : IpHash.route p client = IpHash.route p' client' := by
  unfold IpHash.route IpHash.select IpHash.hashIp
  rw [hlist]
  simp only [Option.elim_some, hip]

/-- The backend that the request is or was forwarded to, as far as its state tells. -/
def Handling.backend : Handling → Option Backend
  | .guarding backend _ _ => some backend
  | .ended (.returned backend _) => backend
  | t => t.guard

/-- Where a request of the client is that took its snapshot of the pool `p`, under IP hash. -/
def Placed (p : BackendPool) (client : SocketAddr) : Handling → Prop
  | .start _ _ => False
  | .selecting _ healthy call => healthy = p.healthyBackends ∧
      ((∃ rng, call = .enter p.healthyBackends (some client) rng) ∨
        call = .done (.ok (IpHash.select p.healthyBackends (some client))))
  | .leaving backend exit => IpHash.route p client = some backend ∧
      ∀ guard resp, exit = .returned guard resp → guard = some backend
  | t => ∀ backend, t.backend = some backend → IpHash.route p client = some backend

section

variable {w : ℕ} {parseUri : Text → Option Uri} {p : BackendPool} {client : SocketAddr}

theorem Placed.route {t : Handling} (h : Placed p client t) {backend : Backend} (hb : t.backend = some backend) :
    IpHash.route p client = some backend := by
  cases t with
  | start req rng => exact h.elim
  | selecting req healthy call => cases hb
  | leaving guard exit =>
    cases hb
    exact h.1
  | _ => exact h backend hb

/-- The call's answer is the client's place in the list. -/
theorem placed_chosen (req : Request) : Placed p client
    (chosen parseUri req p.healthyBackends (.ok (IpHash.select p.healthyBackends (some client)))) := by
  have hroute : IpHash.route p client =
      (IpHash.select p.healthyBackends (some client)).bind fun index => p.healthyBackends[index]? := rfl
  rcases hsel : IpHash.select p.healthyBackends (some client) with _ | index
  · exact fun backend hb => by cases hb
  · rw [hsel, Option.bind_some] at hroute
    simp only [chosen]
    rcases hb : p.healthyBackends[index]? with _ | backend
    · exact fun backend hb => by cases hb
    · dsimp only
      rcases parseUri (backendUri backend.addr req.pathAndQuery) with _ | uri
      · exact fun backend hb => by cases hb
      · dsimp only
        rcases rewriteRequest req.headers req.clientAddr backend.addr with e | headers
        · exact fun backend hb => by cases hb
        · rintro backend' hb'
          cases hb'
          exact hroute.trans hb

/-- Relaying the body leaves the backend as it is. -/
theorem backend_relay (exit : Exit) (i : Input) :
    (Handling.ended (exit.relay i)).backend = (Handling.ended exit).backend := by
  unfold Exit.relay
  split <;> rfl

theorem placed_step {s : Proxy} (hs : s.strategy = .ipHash) {t : Handling} (h : Placed p client t) (i : Input) :
    Placed p client (handleRequest w parseUri s t i).2 := by
  cases t with
  | start req rng => exact h.elim
  | selecting req healthy call =>
    obtain ⟨rfl, hcall⟩ := h
    cases i with
    | go elapsed =>
      rcases hcall with ⟨rng, rfl⟩ | rfl
      · simp only [handleRequest, Call.result, hs]
        exact ⟨rfl, .inr rfl⟩
      · exact placed_chosen req
    | _ => exact ⟨rfl, hcall⟩
  | guarding b uri headers => cases i <;> exact h
  | awaiting b uri headers =>
    have hb : IpHash.route p client = some b := h b rfl
    cases i with
    | cancel => exact ⟨hb, fun guard resp h => by cases h⟩
    | panic message => exact ⟨hb, fun guard resp h => by cases h⟩
    | _ => exact h
  | recording guard resp => cases i <;> exact h
  | observing guard resp =>
    cases i with
    | go elapsed =>
      cases guard with
      | none => exact fun backend hb => by cases hb
      | some b => exact ⟨h b rfl, fun guard resp h => by cases h; rfl⟩
    | _ => exact h
  | leaving b exit =>
    cases i with
    | go elapsed =>
      obtain ⟨hb, hexit⟩ := h
      cases exit with
      | returned guard resp =>
        rintro backend hbackend
        obtain rfl := hexit guard resp rfl
        cases hbackend
        exact hb
      | _ => exact fun backend hbackend => by cases hbackend
    | _ => exact h
  | ended exit =>
    have hended : (handleRequest w parseUri s (.ended exit) i).2 = .ended (exit.relay i) := by cases i <;> rfl
    rw [hended]
    rintro backend hb
    rw [backend_relay] at hb
    exact h backend hb

theorem ipHash_step {s : Proxy} (hs : s.strategy = .ipHash) (t : Handling) (i : Input) :
    (handleRequest w parseUri s t i).1.strategy = .ipHash := by
  rcases (handleRequest_moved w parseUri s t i).strategy with h | ⟨call, h⟩
  · rw [h, hs]
  · rw [h, hs]
    cases call <;> rfl

theorem ipHash_upkeep {s : Proxy} (hs : s.strategy = .ipHash) (e : Upkeep) : (upkeep s e).strategy = .ipHash := by
  cases e <;> exact hs

theorem ipHash_run (choices : List Choice) {s : Threads Proxy Handling} (hs : s.shared.strategy = .ipHash) :
    (run (serving w parseUri) s choices).2.shared.strategy = .ipHash := by
  have m : Modular upkeep (fun r : Request × RandomRange => Handling.start r.1 r.2) (handleRequest w parseUri)
      (fun s => s.strategy = .ipHash) (fun _ _ => True) fun _ _ _ => True :=
    ⟨fun _ e h => ⟨ipHash_upkeep h e, fun _ _ => trivial⟩, fun _ _ _ => trivial,
      fun _ t i h _ _ => ⟨ipHash_step h t i, trivial⟩, fun _ _ _ _ _ _ _ _ => trivial⟩
  exact (holds_run m choices ⟨hs, fun _ _ => trivial⟩ (along_free choices s)).1

/-- From its snapshot on a request goes where the pool of that moment routes its client. -/
theorem placed_run {s : Threads Proxy Handling} (hs : s.shared.strategy = .ipHash) {k : ℕ} {req : Request}
    {rng : RandomRange} (hk : s.threads[k]? = some (.start req rng)) (elapsed : ℕ) (choices : List Choice) :
    ∃ u, (run (serving w parseUri) s (.step k (.go elapsed) :: choices)).2.threads[k]? = some u ∧
      Placed s.shared.pool req.clientAddr u := by
  have hkeep : ∀ (s' : Proxy) (t : Handling) (i : Input), s'.strategy = .ipHash →
      Placed s.shared.pool req.clientAddr t →
      Placed s.shared.pool req.clientAddr (handleRequest w parseUri s' t i).2 :=
    fun _ _ i hs ht => placed_step hs ht i
  have htaken : Placed s.shared.pool req.clientAddr
      (handleRequest w parseUri s.shared (.start req rng) (.go elapsed)).2 :=
    ⟨rfl, .inl ⟨rng, rfl⟩⟩
  exact kept_from (fun _ e h => ipHash_upkeep h e) (fun _ t i h => ipHash_step h t i) hkeep hs hk htaken choices

end

/-- Under IP hash two requests from one IP that find the same healthy list go to the backend that this list routes the
IP to, and to no other at any time, whatever their ports, targets and headers, and whatever happens before, between and
after their snapshots. -/
theorem session_affinity (w : ℕ) (parseUri : Text → Option Uri) (p : Proxy) (hp : p.strategy = .ipHash)
    (first between last : List Choice) (j k elapsed elapsed' : ℕ) (req req' : Request) (rng rng' : RandomRange)
    (hj : (run (serving w parseUri) (idle p) first).2.threads[j]? = some (.start req rng))
    (hk : (run (serving w parseUri) (idle p) (first ++ .step j (.go elapsed) :: between)).2.threads[k]? =
      some (.start req' rng'))
    (hlist : (run (serving w parseUri) (idle p) first).2.shared.pool.healthyBackends =
      (run (serving w parseUri) (idle p) (first ++ .step j (.go elapsed) :: between)).2.shared.pool.healthyBackends)
    (hip : req.clientAddr.ip = req'.clientAddr.ip) :
    let found := (run (serving w parseUri) (idle p) first).2.shared.pool
    let s := (run (serving w parseUri) (idle p)
      (first ++ .step j (.go elapsed) :: between ++ .step k (.go elapsed') :: last)).2
    ∃ t u, s.threads[j]? = some t ∧ s.threads[k]? = some u ∧
      ∀ b, t.backend = some b ∨ u.backend = some b → IpHash.route found req.clientAddr = some b := by
  intro found s
  obtain ⟨t, ht, hplaced⟩ := placed_run (ipHash_run first hp) hj elapsed (between ++ .step k (.go elapsed') :: last)
  obtain ⟨u, hu, hplaced'⟩ :=
    placed_run (ipHash_run (first ++ .step j (.go elapsed) :: between) hp) hk elapsed' last
  refine ⟨t, u, ?_, ?_, ?_⟩
  · simp only [s, List.append_assoc, List.cons_append]
    rw [run_append]
    exact ht
  · simp only [s]
    rw [run_append]
    exact hu
  · rintro b (hb | hb)
    · exact hplaced.route hb
    · exact (route_congr hlist hip).trans (hplaced'.route hb)

/-- While the first request of the client is on its way, the list is emptied and filled again. -/
theorem session_affinity_ports :
    let req : Request := ⟨.v4 ⟨192, 168, 1, 3⟩ 1234, none, ⟨[]⟩⟩
    let req' : Request := ⟨.v4 ⟨192, 168, 1, 3⟩ 4321, none, ⟨[]⟩⟩
    let p : Proxy := ⟨threeBackends, .ipHash, .new⟩
    let between : List Choice := [.outside (.replaceCache []), .step 0 (.go 0), .step 0 (.go 0),
      .outside (.replaceCache threeBackends.backends), .spawn (req', .lowest)]
    let last : List Choice := [.step 1 (.go 0), .step 0 (.go 0), .step 1 (.go 0), .step 1 (.go 0)]
    let found := (run (serving 64 Uri.accept) (idle p) [.spawn (req, .lowest)]).2.shared.pool
    let s := (run (serving 64 Uri.accept) (idle p)
      ([.spawn (req, .lowest)] ++ .step 0 (.go 0) :: between ++ .step 1 (.go 0) :: last)).2
    ∃ t u, s.threads[0]? = some t ∧ s.threads[1]? = some u ∧
      ∀ b, t.backend = some b ∨ u.backend = some b → IpHash.route found req.clientAddr = some b := by
  intro req req' p between last found s
  exact session_affinity 64 Uri.accept p rfl [.spawn (req, .lowest)] between last 0 1 0 0 req req' .lowest .lowest
    rfl rfl rfl rfl

end Gungho.Proxy
