/-
Least connections under concurrent requests that stay open: a request reads the counters of the slice
one after the other and takes its guard some time after it has chosen, so requests choose by stale
counts. They fill the slice as the threads of `Lib/Filling` do, and the same bound holds.
-/
import Gungho.Lib.Filling
import Gungho.Proxy.Handle

namespace Gungho.Proxy

open Gungho.Lib Gungho.Lb Gungho.Net Gungho.Pool

/-! ## Requests that stay open -/

/-- The request is between its first load of a counter and its increment. -/
def Handling.pending : Handling → Bool
  | .selecting _ healthy (.scan rest _) => rest.length < healthy.length
  | .selecting _ _ (.done _) => true
  | .guarding _ _ _ => true
  | _ => false

/-- A request arrives or goes on, or a flag is stored: no request completes, and the slice stays. -/
def staysOpen : Choice → Bool
  | .outside (.setHealth _ _) => true
  | .spawn _ => true
  | .step _ (.go _) => true
  | _ => false

/-- No counter of the slice has reached `usize::MAX`, and at most `c` requests are pending. -/
def Fills (w : ℕ) (slice : List Backend) (c : ℕ) (s : Threads Proxy Handling) (choice : Choice) : Prop :=
  staysOpen choice = true ∧ (∀ b ∈ slice, b.getActiveConnections s.shared.pool.mem < 2 ^ w - 1) ∧
    s.threads.countP Handling.pending ≤ c

instance (w : ℕ) (slice : List Backend) (c : ℕ) (s : Threads Proxy Handling) (choice : Choice) :
    Decidable (Fills w slice c s choice) :=
  inferInstanceAs (Decidable (_ ∧ _ ∧ _))

/-! ## Requests as picking threads -/

/-- A request and the thread it is. A key is the allocation of a backend. -/
inductive Picks (w : ℕ) (slice : List Backend) : Handling → Pick ℕ → Prop
  | start (req : Request) (rng : RandomRange) : Picks w slice (.start req rng) .waiting
  | enter (req : Request) (clientAddr : Option SocketAddr) (rng : RandomRange) :
    Picks w slice (.selecting req slice (.enter slice clientAddr rng)) .waiting
  | first (req : Request) : Picks w slice (.selecting req slice (.scan slice.zipIdx (0, 2 ^ w - 1))) .waiting
  | scan (req : Request) {k least : ℕ} {rest : List Backend} {b : Backend} (conns : ℕ) :
    0 < k → slice.drop k = rest → slice[least]? = some b →
    Picks w slice (.selecting req slice (.scan (rest.zipIdx k) (least, conns)))
      (.looking (rest.map Backend.id) b.id conns)
  | done (req : Request) {least : ℕ} {b : Backend} (conns : ℕ) : slice[least]? = some b →
    Picks w slice (.selecting req slice (.done (.ok (some least)))) (.looking [] b.id conns)
  | guarding {b : Backend} (uri : Uri) (headers : HeaderMap) (conns : ℕ) : b ∈ slice →
    Picks w slice (.guarding b uri headers) (.looking [] b.id conns)
  | awaiting (b : Backend) (uri : Uri) (headers : HeaderMap) : Picks w slice (.awaiting b uri headers) .placed
  | ended (exit : Exit) : Picks w slice (.ended exit) .placed

section

variable {w : ℕ} {parseUri : Text → Option Uri} {slice : List Backend} {s : Proxy} {t : Handling} {u : Pick ℕ}

theorem pending_of_picks (t : Handling) (u : Pick ℕ) (h : Picks w slice t u) (hu : u.pending = true) :
    t.pending = true := by
  cases h with
  | scan req conns hk hrest hb =>
    have hlen : 0 < slice.length := by
      have := (List.getElem?_eq_some_iff.1 hb).1
      omega
    refine decide_eq_true ?_
    rw [List.length_zipIdx, ← hrest, List.length_drop]
    omega
  | done => rfl
  | guarding => rfl
  | _ => cases hu

/-- What the state of the proxy is while requests fill it. -/
structure Least (w : ℕ) (slice : List Backend) (s : Proxy) : Prop where
  strategy : s.strategy = .leastConnections
  cache : s.pool.healthyCache = slice
  fits : ∀ b ∈ slice, b.getActiveConnections s.pool.mem < 2 ^ w - 1

/-- While a call of `select` is in progress the step of the request is the step of the call. -/
theorem handleRequest_select (hs : s.strategy = .leastConnections) (req : Request) (healthy : List Backend)
    {call : Call} (hr : call.result = none) (elapsed : ℕ) :
    handleRequest w parseUri s (.selecting req healthy call) (.go elapsed) =
      (s, .selecting req healthy (call.nextLeast w s.pool.mem)) := by
  obtain ⟨pool, strategy, metrics⟩ := s
  cases hs
  simp only [handleRequest, hr, Call.next]

/-- What a load does to the least count. -/
theorem visit_cases (mem : Mem) (least : ℕ × ℕ) (b : Backend) (k : ℕ) :
    (mem.activeConnections b.id < least.2 ∧
      LeastConnections.visit mem least (b, k) = (k, mem.activeConnections b.id)) ∨
    least.2 ≤ mem.activeConnections b.id ∧ LeastConnections.visit mem least (b, k) = least := by
  unfold LeastConnections.visit Backend.getActiveConnections
  rcases Nat.lt_or_ge (mem.activeConnections b.id) least.2 with hlt | hge
  · exact .inl ⟨hlt, if_pos hlt⟩
  · exact .inr ⟨hge, if_neg (Nat.not_lt.2 hge)⟩

/-- An increment that does not wrap. -/
theorem activeConnections_increment {b : Backend} {mem : Mem} (h : b.getActiveConnections mem < 2 ^ w - 1) :
    (b.incrementConnections w mem).activeConnections =
      Function.update mem.activeConnections b.id (mem.activeConnections b.id + 1) := by
  have hfit : mem.activeConnections b.id + 1 < 2 ^ w := Nat.add_lt_of_lt_sub h
  funext i
  rw [Function.update_apply]
  show (if i = b.id then (mem.activeConnections i + 1) % 2 ^ w else mem.activeConnections i) = _
  split
  · rename_i hi
    rw [hi, Nat.mod_eq_of_lt hfit]
  · rfl

/-- The step of a request is a step of its thread. -/
theorem picks_step (parseUri : Text → Option Uri) (hne : slice ≠ []) (hs : Least w slice s) (h : Picks w slice t u)
    (elapsed : ℕ) :
    ∃ u', Picks w slice (handleRequest w parseUri s t (.go elapsed)).2 u' ∧
      Pick.Step (slice.map Backend.id) s.pool.mem.activeConnections u
        (handleRequest w parseUri s t (.go elapsed)).1.pool.mem.activeConnections u' := by
  cases h with
  | start req rng =>
    obtain ⟨-, rfl, -⟩ := hs
    exact ⟨.waiting, .enter req _ rng, .stay _ _⟩
  | enter req clientAddr rng =>
    rw [handleRequest_select hs.strategy req slice rfl, Call.nextLeast, if_neg (by simpa using hne)]
    exact ⟨.waiting, .first req, .stay _ _⟩
  | first req =>
    obtain ⟨b, rest, rfl⟩ := List.exists_cons_of_ne_nil hne
    have hload : LeastConnections.visit s.pool.mem (0, 2 ^ w - 1) (b, 0) = (0, s.pool.mem.activeConnections b.id) :=
      if_pos (hs.fits b List.mem_cons_self)
    rw [handleRequest_select hs.strategy req _ rfl, List.zipIdx_cons, Call.nextLeast, hload]
    exact ⟨_, .scan req _ Nat.one_pos rfl rfl, .first rfl⟩
  | @scan req k least rest b conns hk hrest hb =>
    rw [handleRequest_select hs.strategy req _ rfl]
    cases rest with
    | nil => exact ⟨_, .done req conns hb, .stay _ _⟩
    | cons d rest =>
      obtain ⟨hd, hrest⟩ := drop_cons hrest
      rw [List.zipIdx_cons, Call.nextLeast]
      rcases visit_cases s.pool.mem (least, conns) d k with ⟨hlt, hload⟩ | ⟨hge, hload⟩
      · rw [hload]
        exact ⟨_, .scan req _ (Nat.succ_pos k) hrest hd, .lower hlt⟩
      · rw [hload]
        exact ⟨_, .scan req _ (Nat.succ_pos k) hrest hb, .keep hge⟩
  | @done req least b conns hb =>
    simp only [handleRequest, Call.result, chosen, hb]
    split
    · exact ⟨_, .ended _, .leave _ _⟩
    · split
      · exact ⟨_, .ended _, .leave _ _⟩
      · exact ⟨_, .guarding _ _ conns (List.mem_of_getElem? hb), .stay _ _⟩
  | @guarding b uri headers conns hb =>
    refine ⟨.placed, .awaiting b uri headers, ?_⟩
    show Pick.Step _ _ _ (b.incrementConnections w s.pool.mem).activeConnections _
    rw [activeConnections_increment (hs.fits b hb)]
    exact .place
  | awaiting b uri headers => exact ⟨.placed, .awaiting b uri headers, .stay _ _⟩
  | ended exit => exact ⟨.placed, .ended _, .stay _ _⟩

theorem next_leastConnections (w : ℕ) (mem : Mem) (call : Call) :
    (call.next w mem .leastConnections).1 = .leastConnections := by
  cases call <;> rfl

/-- No request changes the strategy's kind or the slice. -/
theorem Moved.steady {s s' : Proxy} {t t' : Handling} {i : Input} (h : Moved w parseUri s t i s' t')
    (hs : s.strategy = .leastConnections) :
    s'.strategy = .leastConnections ∧ s'.pool.healthyCache = s.pool.healthyCache := by
  cases h with
  | @select req healthy call hr elapsed =>
    refine ⟨?_, rfl⟩
    show (call.next w s.pool.mem s.strategy).1 = _
    rw [hs]
    exact next_leastConnections w s.pool.mem call
  | _ => exact ⟨hs, rfl⟩

/-! ## Runs -/

/-- The requests are threads that fill the slice from the counts of `p`. -/
def Filling (w : ℕ) (p : Proxy) (slice : List Backend) (c : ℕ) (s : Threads Proxy Handling) : Prop :=
  s.shared.strategy = .leastConnections ∧ s.shared.pool.healthyCache = slice ∧
    ∃ us, List.Forall₂ (Picks w slice) s.threads us ∧
      Filled (slice.map Backend.id) p.pool.mem.activeConnections c s.shared.pool.mem.activeConnections us

theorem filling_step (parseUri : Text → Option Uri) {p : Proxy} {c : ℕ} (hne : slice ≠ []) (s : Threads Proxy Handling)
    (choice : Choice) (h : Filling w p slice c s) (hc : Fills w slice c s choice) :
    Filling w p slice c (serving w parseUri s choice).2 := by
  obtain ⟨hleast, hcache, us, hpicks, hfilled⟩ := h
  obtain ⟨hopen, hfits, hfew⟩ := hc
  unfold serving
  rcases interleave_cases s choice with
    ⟨e, rfl, hs⟩ | ⟨r, rfl, hs⟩ | ⟨k, i, rfl, -, hs⟩ | ⟨pre, t, post, i, rfl, ht, hs⟩
  · rw [hs]
    cases e with
    | setHealth backend healthy => exact ⟨hleast, hcache, us, hpicks, hfilled⟩
    | replaceCache healthy => cases hopen
  · rw [hs]
    exact ⟨hleast, hcache, us ++ [.waiting], List.rel_append hpicks (.cons (.start r.1 r.2) .nil),
      filled_waiting hfilled⟩
  · rw [hs]
    exact ⟨hleast, hcache, us, hpicks, hfilled⟩
  · cases i with
    | go elapsed =>
      rw [ht] at hpicks hfew
      have hpending : us.countP Pick.pending ≤ c := (countP_le_of_forall₂ hpicks pending_of_picks).trans hfew
      obtain ⟨pre', u, post', rfl, htu, hothers⟩ := forall₂_middle hpicks
      obtain ⟨u', htu', hstep⟩ := picks_step parseUri hne ⟨hleast, hcache, hfits⟩ htu elapsed
      obtain ⟨hleast', hcache'⟩ := (handleRequest_moved w parseUri s.shared t (.go elapsed)).steady hleast
      rw [hs]
      exact ⟨hleast', hcache'.trans hcache, _, hothers _ _ htu', filled_step hfilled hstep hpending⟩
    | _ => cases hopen

end

/-! ## The result -/

/-- In every state of a run of least connections in which at most `c` requests are pending at a time and
none completes, a backend whose count has risen counts at most `c` more than any backend of the slice. -/
theorem active_le_add (w : ℕ) (parseUri : Text → Option Uri) (p : Proxy) (hleast : p.strategy = .leastConnections)
    (c : ℕ)
    (choices : List Choice) (hfill : Along (serving w parseUri) (Fills w p.pool.healthyCache c) (idle p) choices)
    {b x : Backend} (hx : x ∈ p.pool.healthyCache)
    (hraised : b.getActiveConnections p.pool.mem <
      b.getActiveConnections (run (serving w parseUri) (idle p) choices).2.shared.pool.mem) :
    b.getActiveConnections (run (serving w parseUri) (idle p) choices).2.shared.pool.mem ≤
      x.getActiveConnections (run (serving w parseUri) (idle p) choices).2.shared.pool.mem + c := by
  have hstart : Filling w p p.pool.healthyCache c (idle p) := ⟨hleast, rfl, [], .nil, filled_start _ _ c⟩
  obtain ⟨-, -, us, -, hfilled⟩ := inv_run (Filling w p p.pool.healthyCache c)
    (filling_step parseUri (List.ne_nil_of_mem hx)) choices (idle p) hstart hfill
  exact hfilled.le_add hraised (List.mem_map_of_mem hx)

/-- Two requests that both load before one of them increments choose the same backend. -/
theorem active_le_add_two :
    let p : Proxy := ⟨.pair, .leastConnections, .new⟩
    let req : Request × RandomRange := (⟨.v4 ⟨192, 168, 1, 1⟩ 1234, none, ⟨[]⟩⟩, .lowest)
    let choices : List Choice := [.spawn req, .spawn req] ++
      List.replicate 6 (.step 0 (.go 0)) ++ List.replicate 7 (.step 1 (.go 0)) ++ [.step 0 (.go 0)]
    let mem := (run (serving 64 Uri.accept) (idle p) choices).2.shared.pool.mem
    Backend.getActiveConnections ⟨0, .v4 ⟨10, 0, 0, 1⟩ 80, 1⟩ mem ≤
      Backend.getActiveConnections ⟨1, .v4 ⟨10, 0, 0, 2⟩ 80, 1⟩ mem + 2 :=
  active_le_add 64 _ _ rfl 2 _ (by decide) (by decide) (by decide)

end Gungho.Proxy
