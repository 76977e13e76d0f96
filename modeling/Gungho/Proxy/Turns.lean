/-
Round robin while requests overlap. Each request that calls `select` draws the next value of the counter, whatever the
others do, and goes where it points in the request's own list. So over every stretch of a run in which the healthy list
stays as it is, each backend is given an equal part of the requests, up to those that still had another list.
-/
import Gungho.Lb.Rotation
import Gungho.Proxy.Progress
import Gungho.Proxy.Shares

namespace Gungho.Proxy

open Gungho.Lib Gungho.Lib.Residue Gungho.Lb Gungho.Net Gungho.Pool Gungho.Health

/-! ## What a request has drawn -/

/-- The backend that `select` gave the request. -/
def Handling.assigned : Handling → Option Backend
  | .selecting _ healthy (.done result) => pointed healthy result
  | .guarding b _ _ => some b
  | .awaiting b _ _ => some b
  | .recording guard _ => guard
  | .observing guard _ => guard
  | .leaving b _ => some b
  | .ended exit => exit.backend
  | _ => none

def Exit.lost : Exit → Bool
  | .returned _ _ => false
  | _ => true

/-- The request ended in a way that does not say which backend it had. -/
def Handling.lost : Handling → Bool
  | .ended exit => exit.lost
  | _ => false

/-- The request has yet to draw, with another list. -/
def Handling.strays (list : List Backend) : Handling → Bool
  | .selecting _ healthy (.enter _ _ _) => decide (healthy ≠ list)
  | _ => false

/-- The request has left the place where it draws. -/
def Handling.drawn : Handling → Bool
  | .start _ _ => false
  | .selecting _ _ (.enter _ _ _) => false
  | _ => true

/-- A request of round robin: it draws for its own list, and gives its guard up with the response it got there. -/
def Handling.Turning : Handling → Prop
  | .selecting _ healthy call =>
    (∃ clientAddr rng, call = .enter healthy clientAddr rng) ∨ ∃ result, call = .done result
  | .leaving b exit => exit.backend = some b ∨ exit.lost = true
  | _ => True

/-- From some requests to what they have become: `hit` more have the backend, up to those that are lost and those that
had another list. -/
structure Grows (list : List Backend) (b : Backend) (hit : ℕ) (ts us : List Handling) : Prop where
  most : us.countP (·.assigned = some b) + us.countP (Handling.strays list) ≤
    ts.countP (·.assigned = some b) + ts.countP (Handling.strays list) + hit
  least : ts.countP (·.assigned = some b) + ts.countP Handling.lost + hit + us.countP (Handling.strays list) ≤
    us.countP (·.assigned = some b) + us.countP Handling.lost + ts.countP (Handling.strays list)

section

variable {w : ℕ} {parseUri : Text → Option Uri} {list : List Backend} {b : Backend} {hit hit' : ℕ}
  {ts us vs : List Handling}

theorem Grows.refl (list : List Backend) (b : Backend) (ts : List Handling) : Grows list b 0 ts ts :=
  ⟨Nat.le_refl _, Nat.le_refl _⟩

theorem Grows.trans (h : Grows list b hit ts us) (h' : Grows list b hit' us vs) : Grows list b (hit + hit') ts vs := by
  obtain ⟨hmost, hleast⟩ := h
  obtain ⟨hmost', hleast'⟩ := h'
  exact ⟨by omega, by omega⟩

/-- One request among others. -/
theorem Grows.middle {t t' : Handling} (h : Grows list b hit [t] [t']) (pre post : List Handling) :
    Grows list b hit (pre ++ t :: post) (pre ++ t' :: post) := by
  obtain ⟨hmost, hleast⟩ := h
  refine ⟨?_, ?_⟩ <;> simp only [countP_split _ pre post] <;> omega

theorem Grows.arrives (list : List Backend) (b : Backend) (ts : List Handling) (req : Request) (rng : RandomRange) :
    Grows list b 0 ts (ts ++ [.start req rng]) := by
  refine ⟨?_, ?_⟩ <;> simp [List.countP_append, Handling.assigned, Handling.lost, Handling.strays]

/-- A step in which the request draws nothing. -/
theorem Grows.keeps {t t' : Handling}
    (hassigned : t'.assigned = t.assigned ∧ t'.lost = t.lost ∨ t'.assigned = none ∧ t.lost = false ∧ t'.lost = true)
    (hstrays : t'.strays list = true → t.strays list = true) : Grows list b 0 [t] [t'] := by
  have hstrays' := countP_singleton_le hstrays
  rcases hassigned with ⟨hsame, hlost⟩ | ⟨hnone, hlost, hlost'⟩
  · have hcount : [t'].countP (·.assigned = some b) = [t].countP (·.assigned = some b) := by
      simp only [List.countP_singleton, hsame]
    have hcount' : [t'].countP Handling.lost = [t].countP Handling.lost := by
      simp only [List.countP_singleton, hlost]
    exact ⟨by omega, by omega⟩
  · have hcount : [t'].countP (·.assigned = some b) = 0 := by
      simp [hnone]
    have hcount' : [t'].countP Handling.lost = 1 ∧ [t].countP Handling.lost = 0 := by
      simp [hlost, hlost']
    have hle : [t].countP (·.assigned = some b) ≤ 1 := List.countP_le_length
    exact ⟨by omega, by omega⟩

theorem pointed_chosen (parseUri : Text → Option Uri) (req : Request) (healthy : List Backend)
    (result : Except Lb.Panic (Option ℕ)) :
    (chosen parseUri req healthy result).assigned = pointed healthy result ∧
        (chosen parseUri req healthy result).lost = false ∨
      (chosen parseUri req healthy result).assigned = none ∧ (chosen parseUri req healthy result).lost = true := by
  rcases result with panic | _ | index
  · exact .inr ⟨rfl, rfl⟩
  · exact .inl ⟨rfl, rfl⟩
  · simp only [chosen, pointed]
    rcases healthy[index]? with _ | backend
    · exact .inr ⟨rfl, rfl⟩
    · dsimp only
      split
      · exact .inr ⟨rfl, rfl⟩
      · rcases rewriteRequest req.headers req.clientAddr backend.addr with e | headers
        · exact .inr ⟨rfl, rfl⟩
        · exact .inl ⟨rfl, rfl⟩

theorem relay_frame (exit : Exit) (i : Input) :
    (exit.relay i).backend = exit.backend ∧ (exit.relay i).lost = exit.lost := by
  unfold Exit.relay
  split <;> exact ⟨rfl, rfl⟩

theorem turning_chosen (parseUri : Text → Option Uri) (req : Request) (list healthy : List Backend)
    (result : Except Lb.Panic (Option ℕ)) :
    (chosen parseUri req healthy result).Turning ∧ (chosen parseUri req healthy result).strays list = false ∧
      (chosen parseUri req healthy result).drawn = true := by
  rcases chosen_cases parseUri req healthy result with ⟨message, h⟩ | h | h | ⟨b, -, uri, headers, h⟩ <;> rw [h] <;>
    exact ⟨trivial, rfl, rfl⟩

/-- A step of a request draws nothing, or it draws the next value of the counter. -/
theorem Moved.turn {s s' : Proxy} {t t' : Handling} {i : Input} (hmoved : Moved w parseUri s t i s' t') {r : RoundRobin}
    (hr : s.strategy = .roundRobin r) (ht : t.Turning) :
    t'.Turning ∧
      ((s'.strategy = s.strategy ∧ (t.drawn = true → t'.drawn = true) ∧
        ∀ b, Grows s.pool.healthyBackends b 0 [t] [t']) ∨
      ∃ req healthy clientAddr rng, healthy ≠ [] ∧ t = .selecting req healthy (.enter healthy clientAddr rng) ∧
        t' = .selecting req healthy (.done (.ok (some (r.turn w healthy.length).1))) ∧
        s'.strategy = .roundRobin (r.turn w healthy.length).2) := by
  cases hmoved with
  | stay t hi => exact ⟨ht, .inl ⟨rfl, id, fun b => .refl ..⟩⟩
  | unpolled req rng => exact ⟨trivial, .inl ⟨rfl, fun _ => rfl, fun b => .keeps (.inr ⟨rfl, rfl, rfl⟩) id⟩⟩
  | snapshot req rng elapsed =>
    exact ⟨.inl ⟨_, _, rfl⟩, .inl ⟨rfl, id, fun b => .keeps (.inl ⟨rfl, rfl⟩) (by simp [Handling.strays])⟩⟩
  | @select req healthy call hresult elapsed =>
    rcases ht with ⟨clientAddr, rng, rfl⟩ | ⟨result, rfl⟩
    · rw [hr]
      refine ⟨.inr ⟨_, rfl⟩, ?_⟩
      by_cases hne : healthy = []
      · -- on the empty list the counter is left alone
        subst hne
        exact .inl ⟨rfl, fun _ => rfl, fun b => .keeps (.inl ⟨rfl, rfl⟩) fun h => by cases h⟩
      · refine .inr ⟨req, healthy, clientAddr, rng, hne, rfl, ?_, ?_⟩
        · rw [Call.next, r.select_eq_turn w hne]
        · rw [Call.next, r.select_eq_turn w hne]
    · cases hresult
  | @choose req healthy call result hresult elapsed =>
    rcases ht with ⟨clientAddr, rng, rfl⟩ | ⟨result, rfl⟩
    · cases hresult
    · cases hresult
      obtain ⟨hturning, hstrays, hdrawn⟩ := turning_chosen parseUri req s.pool.healthyBackends healthy result
      refine ⟨hturning, .inl ⟨rfl, fun _ => hdrawn, fun b => .keeps ?_ (by simp [hstrays])⟩⟩
      rcases pointed_chosen parseUri req healthy result with h | ⟨hnone, hlost⟩
      · exact .inl h
      · exact .inr ⟨hnone, rfl, hlost⟩
  | unwind b uri headers hi hexit =>
    refine ⟨?_, .inl ⟨rfl, id, fun b => .keeps (.inl ⟨rfl, rfl⟩) id⟩⟩
    rcases hexit with rfl | ⟨message, rfl⟩ <;> exact .inr rfl
  | observe b resp elapsed => exact ⟨.inl rfl, .inl ⟨rfl, id, fun b => .keeps (.inl ⟨rfl, rfl⟩) id⟩⟩
  | release b exit elapsed =>
    refine ⟨trivial, .inl ⟨rfl, id, fun c => .keeps ?_ id⟩⟩
    cases exit with
    | returned backend resp => exact .inl ⟨ht.resolve_right Bool.false_ne_true, rfl⟩
    | _ => exact .inr ⟨rfl, rfl, rfl⟩
  | relay exit i => exact ⟨trivial, .inl ⟨rfl, id, fun b => .keeps (.inl (relay_frame exit i)) id⟩⟩
  | _ => exact ⟨trivial, .inl ⟨rfl, id, fun b => .keeps (.inl ⟨rfl, rfl⟩) id⟩⟩

/-- A draw on the list is a hit if the counter points to the backend; one on another list may be anything. -/
theorem grows_draw (hn : list.Nodup) {j : ℕ} (hj : list[j]? = some b) (r : RoundRobin) (req : Request)
    (healthy : List Backend) (clientAddr : Option SocketAddr) (rng : RandomRange) :
    Grows list b (if r.counter % list.length = j then 1 else 0) [.selecting req healthy (.enter healthy clientAddr rng)]
      [.selecting req healthy (.done (.ok (some (r.turn w healthy.length).1)))] := by
  by_cases hlist : healthy = list
  · subst hlist
    have hpointed :
        pointed healthy (.ok (some (r.counter % healthy.length))) = some b ↔ r.counter % healthy.length = j := by
      simp [pointed_eq_iff hn hj]
    refine ⟨?_, ?_⟩ <;> simp [Handling.assigned, Handling.lost, Handling.strays, RoundRobin.turn, hpointed]
  · have hhit : (if r.counter % list.length = j then 1 else 0) ≤ 1 := by split <;> omega
    have hstray :
        [Handling.selecting req healthy (.enter healthy clientAddr rng)].countP (Handling.strays list) = 1 := by
      simp [Handling.strays, hlist]
    have hgiven : [Handling.selecting req healthy (.done (.ok (some (r.turn w healthy.length).1)))].countP
      (·.assigned = some b) ≤ 1 := List.countP_le_length
    refine ⟨?_, ?_⟩ <;> rw [hstray]
    · show _ + 0 ≤ 0 + 1 + _
      omega
    · show 0 + 0 + _ + 0 ≤ _ + 0 + 1
      omega

end

/-! ## Runs -/

theorem Kept.roundRobin {bs : List Backend} {s : Service} (h : Kept bs .roundRobin s) :
    ∃ r, s.proxy.strategy = .roundRobin r := by
  have halgorithm := h.algorithm
  rcases hs : s.proxy.strategy with r | _ | _ | _ | _
  · exact ⟨r, rfl⟩
  all_goals rw [hs] at halgorithm; cases halgorithm

theorem modular_turning (w : ℕ) (parseUri : Text → Option Uri) (config : HealthCheckConfig) (bs : List Backend) :
    Modular (Service.check config) (fun r : Request × RandomRange => Handling.start r.1 r.2) (Service.handle w parseUri)
      (Kept bs .roundRobin) (fun _ t => t.Of .roundRobin ∧ t.Turning) fun _ _ _ => True :=
  (modular_kept w parseUri config bs .roundRobin).also (fun _ => trivial) fun s t i hs _ _ h => by
    obtain ⟨r, hr⟩ := hs.roundRobin
    exact ((handleRequest_moved w parseUri s.proxy t i).turn hr h).1

/-- Since the counter was `c` and the requests were `ts`, there were `k` draws, by requests that had not drawn. -/
structure Draws (w c : ℕ) (ts : List Handling) (k : ℕ) (s : Service) (us : List Handling) : Prop where
  counter : s.proxy.strategy = .roundRobin ⟨(c + k) % 2 ^ w⟩
  drawn : ts.countP Handling.drawn + k ≤ us.countP Handling.drawn

/-- And every backend of the list was given its part of them. -/
def Spread (w : ℕ) (list : List Backend) (c : ℕ) (ts : List Handling) (s : Service) (us : List Handling) : Prop :=
  ∃ k, Draws w c ts k s us ∧
    ∀ j b, list[j]? = some b → Grows list b (wrapped (2 ^ w) list.length j c k) ts us

section

variable {w : ℕ} {parseUri : Text → Option Uri} {config : HealthCheckConfig} {bs list : List Backend} {c k : ℕ}
variable {ts pre post : List Handling} {s s' : Service} {t t' : Handling}

theorem Draws.keeps (h : Draws w c ts k s (pre ++ t :: post)) (hstrategy : s'.proxy.strategy = s.proxy.strategy)
    (hdrawn : t.drawn = true → t'.drawn = true) : Draws w c ts k s' (pre ++ t' :: post) := by
  obtain ⟨hcounter, hle⟩ := h
  have hmore := countP_singleton_le hdrawn
  rw [countP_split] at hle
  refine ⟨hstrategy.trans hcounter, ?_⟩
  rw [countP_split]
  omega

theorem Draws.draws (h : Draws w c ts k s (pre ++ t :: post))
    (hstrategy : s'.proxy.strategy = .roundRobin ⟨((c + k) % 2 ^ w + 1) % 2 ^ w⟩) (ht : t.drawn = false)
    (ht' : t'.drawn = true) : Draws w c ts (k + 1) s' (pre ++ t' :: post) := by
  obtain ⟨hcounter, hle⟩ := h
  rw [Nat.mod_add_mod, Nat.add_assoc] at hstrategy
  rw [countP_split] at hle
  refine ⟨hstrategy, ?_⟩
  rw [countP_split]
  simp only [List.countP_singleton, ht, ht', if_true, if_false, Bool.false_eq_true] at hle ⊢
  omega

theorem Draws.arrives (h : Draws w c ts k s pre) (req : Request) (rng : RandomRange) :
    Draws w c ts k s (pre ++ [.start req rng]) :=
  ⟨h.counter, h.drawn.trans (by rw [List.countP_append]; exact Nat.le_add_right ..)⟩

theorem collective_draws (w : ℕ) (parseUri : Text → Option Uri) (config : HealthCheckConfig) (bs : List Backend) :
    Collective (Service.check config) (fun r : Request × RandomRange => Handling.start r.1 r.2)
      (Service.handle w parseUri)
      (Kept bs .roundRobin) (fun _ t => t.Of .roundRobin ∧ t.Turning) (fun _ _ _ => True)
      fun s us => ∃ k, Draws w 0 [] k s us where
  env _ _ _ h := by
    obtain ⟨k, hcounter, hdrawn⟩ := h
    exact ⟨k, hcounter, hdrawn⟩
  spawn s r ts h := by
    obtain ⟨k, h⟩ := h
    exact ⟨k, h.arrives ..⟩
  next s pre t post i hs ht _ h := by
    obtain ⟨k, h⟩ := h
    obtain ⟨-, ⟨hsame, hdrawn, -⟩ | ⟨req, healthy, clientAddr, rng, hne, rfl, ht', hstrategy⟩⟩ :=
      (handleRequest_moved w parseUri s.proxy t i).turn h.counter ht.2
    · exact ⟨k, h.keeps hsame hdrawn⟩
    · exact ⟨k + 1, h.draws hstrategy rfl (congrArg Handling.drawn ht')⟩

theorem collective_spread (hn : bs.Nodup) :
    Collective (Service.check config) (fun r : Request × RandomRange => Handling.start r.1 r.2)
      (Service.handle w parseUri)
      (Kept bs .roundRobin) (fun _ t => t.Of .roundRobin ∧ t.Turning)
      (fun s _ _ => s.proxy.pool.healthyBackends = list) (Spread w list c ts) where
  env _ _ _ h := by
    obtain ⟨k, ⟨hcounter, hdrawn⟩, hgrows⟩ := h
    exact ⟨k, ⟨hcounter, hdrawn⟩, hgrows⟩
  spawn s r us h := by
    obtain ⟨k, hdraws, hgrows⟩ := h
    exact ⟨k, hdraws.arrives .., fun j b hj => (hgrows j b hj).trans (.arrives ..)⟩
  next s pre t post i hs ht hlist h := by
    obtain ⟨k, hdraws, hgrows⟩ := h
    subst hlist
    obtain ⟨-, ⟨hsame, hdrawn, hkeeps⟩ | ⟨req, healthy, clientAddr, rng, hne, rfl, ht', hstrategy⟩⟩ :=
      (handleRequest_moved w parseUri s.proxy t i).turn hdraws.counter ht.2
    · exact ⟨k, hdraws.keeps hsame hdrawn, fun j b hj => (hgrows j b hj).trans ((hkeeps b).middle ..)⟩
    · refine ⟨k + 1, hdraws.draws hstrategy rfl (congrArg Handling.drawn ht'), fun j b hj => ?_⟩
      rw [wrapped_succ]
      refine (hgrows j b hj).trans (Grows.middle ?_ pre post)
      show Grows _ b _ _ [(handleRequest w parseUri s.proxy _ i).2]
      rw [ht']
      exact grows_draw (hs.list.nodup hn) hj _ ..

end

/-! ## The result -/

/-- Take any moment of any run of a proxy that uses round robin, and a stretch from there in which the healthy list is
the same whenever a request takes a step. Of the requests that draw in the stretch each backend of the list is given an
equal part, rounded down or up: more only by requests that had another list and were yet to draw, and less only by those
and by requests that have ended in a way that does not say what they were given. -/
theorem rotates_evenly (w : ℕ) (parseUri : Text → Option Uri) (config : HealthCheckConfig) (p : Proxy)
    (hp : p.pool.Synced) (hstrategy : p.strategy = createStrategy .roundRobin) (metrics : GunghoMetrics)
    (before after : List (Sched TaskInput (Request × RandomRange) Input)) (list : List Backend)
    (hlist : Along (tending w parseUri config) (StepCond fun s _ _ => s.proxy.pool.healthyBackends = list)
      (run (tending w parseUri config) ⟨.start p metrics, []⟩ before).2 after)
    (hw : (run (tending w parseUri config) ⟨.start p metrics, []⟩ (before ++ after)).2.threads.length < 2 ^ w) :
    let s := (run (tending w parseUri config) ⟨.start p metrics, []⟩ before).2
    let s' := (run (tending w parseUri config) ⟨.start p metrics, []⟩ (before ++ after)).2
    ∃ c k, s.shared.proxy.strategy = .roundRobin ⟨c⟩ ∧ s'.shared.proxy.strategy = .roundRobin ⟨c + k⟩ ∧
      ∀ b ∈ list,
        s'.threads.countP (·.assigned = some b) ≤ s.threads.countP (·.assigned = some b) +
          (k + list.length - 1) / list.length + s.threads.countP (Handling.strays list) ∧
        s.threads.countP (·.assigned = some b) + s.threads.countP Handling.lost + k / list.length ≤
          s'.threads.countP (·.assigned = some b) + s'.threads.countP Handling.lost +
          s.threads.countP (Handling.strays list) := by
  intro s s'
  have hrun : s' = (run (tending w parseUri config) s after).2 := by
    show (run (tending w parseUri config) ⟨.start p metrics, []⟩ _).2 = _
    rw [run_append]
  have hmodular := modular_turning w parseUri config p.pool.backends
  have hkept : Kept p.pool.backends .roundRobin (Service.start p metrics) := by
    have hstart := kept_start hp metrics
    rwa [hstrategy] at hstart
  have hholds : Holds (Kept p.pool.backends .roundRobin) (fun _ t => t.Of .roundRobin ∧ t.Turning) s :=
    holds_run hmodular before ⟨hkept, by simp⟩ (along_free before _)
  -- the counter at the moment
  obtain ⟨c, hc⟩ : ∃ c, Draws w 0 [] c s.shared s.threads :=
    collective_run hmodular (collective_draws w parseUri config p.pool.backends) ⟨hkept, by simp⟩
      ⟨0, hstrategy, Nat.le_refl _⟩ before (along_free before _)
  have hcounter : s.shared.proxy.strategy = .roundRobin ⟨c % 2 ^ w⟩ := by
    rw [hc.counter, Nat.zero_add]
  obtain ⟨k, hk, hgrows⟩ : Spread w list c s.threads s'.shared s'.threads := by
    rw [hrun]
    exact collective_run (hmodular.under fun _ _ _ _ => trivial) (collective_spread p.pool.backends_nodup) hholds
      ⟨0, ⟨hcounter, Nat.le_refl _⟩, fun j b _ => .refl ..⟩ after hlist
  -- each request draws once, so the counter does not wrap
  have hdraws : c + k < 2 ^ w := by
    calc c + k ≤ s.threads.countP Handling.drawn + k := Nat.add_le_add_right ((Nat.zero_add c).symm.le.trans hc.drawn) k
      _ ≤ s'.threads.countP Handling.drawn := hk.drawn
      _ ≤ s'.threads.length := List.countP_le_length
      _ < 2 ^ w := hw
  refine ⟨c, k, ?_, ?_, fun b hb => ?_⟩
  · rwa [Nat.mod_eq_of_lt (by omega)] at hcounter
  · rw [hk.counter, Nat.mod_eq_of_lt hdraws]
  · obtain ⟨j, hj⟩ := List.getElem?_of_mem hb
    have hi : j < list.length := (List.getElem?_eq_some_iff.1 hj).1
    obtain ⟨hmost, hleast⟩ := hgrows j b hj
    rw [wrapped_of_le hdraws.le] at hmost hleast
    obtain ⟨hfloor, hceil⟩ := hits_bounds hi c k
    exact ⟨by omega, by omega⟩


/-- The first request takes its snapshot while one of the backends is out, and draws among four that find both. -/
theorem rotates_evenly_astray :
    let config : HealthCheckConfig := { unhealthyThreshold := 1, healthyThreshold := 1 }
    let p : Proxy := ⟨.pair, createStrategy .roundRobin, .new⟩
    let req : Request × RandomRange := (⟨.v4 ⟨192, 168, 1, 1⟩ 1234, none, ⟨[]⟩⟩, .lowest)
    let before : List (Sched TaskInput (Request × RandomRange) Input) :=
      [[.outside (.joined 0 .unhealthy)], List.replicate 7 (.outside .step), [.spawn req, .step 0 (.go 0)],
        [.outside (.joined 0 .healthy)], List.replicate 8 (.outside .step)].flatten
    let after : List (Sched TaskInput (Request × RandomRange) Input) :=
      [List.replicate 4 (.spawn req), [1, 2, 3, 4, 2, 1, 0, 4, 3].map fun k => .step k (.go 0)].flatten
    ∀ b ∈ p.pool.backends,
      (run (tending 64 Uri.accept config) ⟨.start p .new, []⟩ (before ++ after)).2.threads.countP
        (·.assigned = some b) ≤ 3 + 1 ∧
      2 ≤ (run (tending 64 Uri.accept config) ⟨.start p .new, []⟩ (before ++ after)).2.threads.countP
        (·.assigned = some b) + 1 := by
  intro config p req before after
  have hstart : (run (tending 64 Uri.accept config) ⟨.start p .new, []⟩ before).2.shared.proxy.strategy =
      .roundRobin ⟨0⟩ ∧
      (run (tending 64 Uri.accept config) ⟨.start p .new, []⟩ before).2.threads.countP
        (Handling.strays p.pool.backends) = 1 ∧
      ∀ b ∈ p.pool.backends, (run (tending 64 Uri.accept config) ⟨.start p .new, []⟩ before).2.threads.countP
        (·.assigned = some b) = 0 := by decide
  have hstop : (run (tending 64 Uri.accept config) ⟨.start p .new, []⟩ (before ++ after)).2.shared.proxy.strategy =
      .roundRobin ⟨5⟩ ∧
      (run (tending 64 Uri.accept config) ⟨.start p .new, []⟩ (before ++ after)).2.threads.countP
        Handling.lost = 0 := by
    decide
  obtain ⟨c, k, hc, hk, h⟩ := rotates_evenly 64 Uri.accept config p (BackendPool.new_synced ..) rfl .new before after
    p.pool.backends (by decide) (by decide)
  rw [hstart.1] at hc
  rw [hstop.1] at hk
  cases hc
  obtain rfl : k = 5 := by
    injection hk with hcounter
    injection hcounter with hcounter
    omega
  intro b hb
  obtain ⟨hmost, hleast⟩ := h b hb
  rw [hstart.2.1, hstart.2.2 b hb, show p.pool.backends.length = 2 from rfl] at hmost hleast
  rw [hstop.2] at hleast
  exact ⟨by omega, by omega⟩

end Gungho.Proxy
