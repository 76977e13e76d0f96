/-
What can panic in a request. The strategies' answers are indices of the list they are asked about, the addresses'
texts are header values, and the weighted strategy finds a slot for every position once its first call has found all
backends healthy: while the client library does not panic, no request does, whatever fails and recovers meanwhile.
-/
import Gungho.Proxy.Progress

namespace Gungho

open Gungho.Lib Gungho.Lb Gungho.Net Gungho.Pool Gungho.Health

/-! ## Calls of `select` -/

namespace Lb

/-- The weighted strategy has slots for `n` positions. -/
def Slotted (n : ℕ) (strategy : Strategy) : Prop := ∀ s, strategy = .weightedRoundRobin s → n ≤ s.vec.length

/-- It has them, or no call has initialised its credits. -/
def Primed (n : ℕ) (strategy : Strategy) : Prop :=
  Slotted n strategy ∨ ∀ s, strategy = .weightedRoundRobin s → s.credits = none

/-- A call that is to initialise the credits finds `n` backends, or none. -/
def Call.opens (n : ℕ) : Strategy → Call → Bool
  | .weightedRoundRobin ⟨none⟩, .enter backends _ _ => backends.isEmpty || decide (n ≤ backends.length)
  | _, _ => true

/-- A call on the list that will answer with an index of it, where the strategy has slots for `n` positions. -/
def Call.Sound (n : ℕ) (strategy : Strategy) (list : List Backend) : Call → Prop
  | .enter backends _ _ => backends = list
  | .scan rest least => least.1 < list.length ∧ ∀ entry ∈ rest, entry.2 < list.length
  | .add i rest l => Slotted n strategy ∧ i + rest.length = list.length ∧ l.bestIndex < list.length
  | .load i rest l => Slotted n strategy ∧ i + 1 + rest.length = list.length ∧ l.bestIndex < list.length
  | .reload i rest l => Slotted n strategy ∧ i + 1 + rest.length = list.length ∧ l.bestIndex < list.length
  | .done result => Valid list result

theorem primed_createStrategy (n : ℕ) (algorithm : Algorithm) : Primed n (createStrategy algorithm) := by
  refine .inr fun s hs => ?_
  cases algorithm <;> cases hs
  rfl

section

variable {n : ℕ} {strategy : Strategy} {list : List Backend} {call : Call}

theorem Call.Sound.of_slotted {strategy' : Strategy} (hkeep : Slotted n strategy → Slotted n strategy')
    (h : call.Sound n strategy list) : call.Sound n strategy' list := by
  cases call with
  | add i rest l => exact ⟨hkeep h.1, h.2⟩
  | load i rest l => exact ⟨hkeep h.1, h.2⟩
  | reload i rest l => exact ⟨hkeep h.1, h.2⟩
  | _ => exact h

/-- No step of a call takes a slot away. -/
theorem vec_length_le (s : WeightedRoundRobin) (call : Call) : s.vec.length ≤ (call.nextWeighted s).1.vec.length := by
  cases call with
  | enter backends clientAddr rng =>
    simp only [Call.nextWeighted]
    split
    · exact Nat.le_refl _
    · obtain ⟨_ | credits⟩ := s
      · exact Nat.zero_le _
      · exact Nat.le_refl _
  | add i rest l =>
    cases rest with
    | nil =>
      simp only [Call.nextWeighted]
      split
      · exact List.length_set.ge
      · exact Nat.le_refl _
    | cons b rest =>
      simp only [Call.nextWeighted]
      split
      · exact Nat.le_refl _
      · exact List.length_set.ge
  | load i rest l =>
    simp only [Call.nextWeighted]
    split <;> exact Nat.le_refl _
  | _ => exact Nat.le_refl _

theorem slotted_next (w : ℕ) (mem : Mem) (call : Call) (h : Slotted n strategy) :
    Slotted n (call.next w mem strategy).1 := by
  cases strategy with
  | weightedRoundRobin s =>
    rintro s' hs'
    have hnext : (call.next w mem (.weightedRoundRobin s)).1 = .weightedRoundRobin (call.nextWeighted s).1 := by
      cases call <;> rfl
    rw [hnext] at hs'
    cases hs'
    exact (h s rfl).trans (vec_length_le s call)
  | _ => cases call <;> exact fun s' hs' => by cases hs'

/-- The first step of a weighted call. -/
theorem entered_weighted {s : WeightedRoundRobin} {backends : List Backend} {clientAddr : Option SocketAddr}
    {rng : RandomRange} (hne : backends ≠ []) (hprimed : Primed n (.weightedRoundRobin s))
    (hopens : (Call.enter backends clientAddr rng).opens n (.weightedRoundRobin s) = true) :
    Slotted n (.weightedRoundRobin ⟨some (s.getOrInit backends)⟩) := by
  rintro s' hs'
  cases hs'
  show n ≤ (s.getOrInit backends).length
  obtain ⟨_ | credits⟩ := s
  · simp only [Call.opens, Bool.or_eq_true, List.isEmpty_iff, decide_eq_true_eq] at hopens
    rw [WeightedRoundRobin.getOrInit_length]
    exact hopens.resolve_left hne
  · rcases hprimed with h | h
    · exact h _ rfl
    · cases h _ rfl

/-- The first step of any call. -/
theorem sound_enter (w : ℕ) (mem : Mem) {clientAddr : Option SocketAddr} {rng : RandomRange}
    (hprimed : Primed n strategy) (hopens : (Call.enter list clientAddr rng).opens n strategy = true) :
    ((Call.enter list clientAddr rng).next w mem strategy).2.Sound n
      ((Call.enter list clientAddr rng).next w mem strategy).1 list := by
  cases strategy with
  | roundRobin s => exact s.select_valid w list
  | ipHash => exact IpHash.select_valid list clientAddr
  | random => exact Random.select_valid rng list
  | leastConnections =>
    by_cases hne : list = []
    · subst hne
      exact valid_nil rfl
    · simp only [Call.next, Call.nextLeast, List.isEmpty_iff, if_neg hne]
      refine ⟨List.length_pos_iff.2 hne, fun entry hentry => ?_⟩
      have hindex := List.mem_zipIdx hentry
      omega
  | weightedRoundRobin s =>
    by_cases hne : list = []
    · subst hne
      exact valid_nil rfl
    · simp only [Call.next, Call.nextWeighted, List.isEmpty_iff, if_neg hne]
      exact ⟨entered_weighted hne hprimed hopens, Nat.zero_add _, List.length_pos_iff.2 hne⟩

theorem sound_next (w : ℕ) (mem : Mem) (hprimed : Primed n strategy) (hopens : call.opens n strategy = true)
    (hlist : list.length ≤ n) (h : call.Sound n strategy list) :
    (call.next w mem strategy).2.Sound n (call.next w mem strategy).1 list := by
  cases call with
  | enter backends clientAddr rng =>
    obtain rfl : backends = list := h
    exact sound_enter w mem hprimed hopens
  | scan rest least =>
    obtain ⟨hleast, hrest⟩ := h
    cases strategy with
    | leastConnections =>
      cases rest with
      | nil => exact .inr ⟨least.1, hleast, rfl⟩
      | cons entry rest =>
        refine ⟨?_, fun e he => hrest e (List.mem_cons_of_mem _ he)⟩
        simp only [LeastConnections.visit]
        split
        · exact hrest entry List.mem_cons_self
        · exact hleast
    | _ => exact ⟨hleast, hrest⟩
  | add i rest l =>
    obtain ⟨hslots, hplace, hbest⟩ := h
    cases strategy with
    | weightedRoundRobin s =>
      have hvec : n ≤ s.vec.length := hslots s rfl
      cases rest with
      | nil =>
        simp only [Call.next, Call.nextWeighted]
        split <;> exact .inr ⟨l.bestIndex, hbest, rfl⟩
      | cons b rest =>
        rw [List.length_cons] at hplace
        have hi : i < s.vec.length := by omega
        simp only [Call.next, Call.nextWeighted, List.getElem?_eq_getElem hi]
        refine ⟨?_, by omega, hbest⟩
        rintro s' hs'
        cases hs'
        exact hvec.trans List.length_set.ge
    | _ => exact ⟨hslots, hplace, hbest⟩
  | load i rest l =>
    obtain ⟨hslots, hplace, hbest⟩ := h
    cases strategy with
    | weightedRoundRobin s =>
      simp only [Call.next, Call.nextWeighted]
      split
      · exact ⟨hslots, hplace, hbest⟩
      · exact ⟨hslots, hplace, hbest⟩
    | _ => exact ⟨hslots, hplace, hbest⟩
  | reload i rest l =>
    obtain ⟨hslots, hplace, hbest⟩ := h
    cases strategy with
    | weightedRoundRobin s =>
      refine ⟨hslots, hplace, ?_⟩
      show i < list.length
      omega
    | _ => exact ⟨hslots, hplace, hbest⟩
  | done result => cases strategy <;> exact h

/-- After any step of a sound call the credits are as they were, or have their slots. -/
theorem primed_next (w : ℕ) (mem : Mem) (hprimed : Primed n strategy) (hopens : call.opens n strategy = true)
    (h : call.Sound n strategy list) : Primed n (call.next w mem strategy).1 := by
  rcases hprimed with hslots | hnone
  · exact .inl (slotted_next w mem call hslots)
  · cases strategy with
    | weightedRoundRobin s =>
      cases call with
      | enter backends clientAddr rng =>
        by_cases hne : backends = []
        · subst hne
          exact .inr hnone
        · simp only [Call.next, Call.nextWeighted, List.isEmpty_iff, if_neg hne]
          exact .inl (entered_weighted hne (.inr hnone) hopens)
      | add i rest l => exact .inl (slotted_next w mem _ h.1)
      | load i rest l => exact .inl (slotted_next w mem _ h.1)
      | reload i rest l => exact .inl (slotted_next w mem _ h.1)
      | scan rest least => exact .inr hnone
      | done result => exact .inr hnone
    | _ => exact .inr fun s hs => by cases call <;> cases hs

end

end Lb

/-! ## Requests -/

namespace Proxy

/-- The request's call of `select` is sound. -/
def Handling.Sound (n : ℕ) (strategy : Strategy) : Handling → Prop
  | .selecting _ healthy call => healthy.length ≤ n ∧ call.Sound n strategy healthy
  | _ => True

/-- The request has not panicked. -/
def Handling.quiet : Handling → Prop
  | .leaving _ exit => ∀ message, exit ≠ .panicked message
  | .ended exit => ∀ message, exit ≠ .panicked message
  | _ => True

/-- The call that is to initialise the credits finds `n` backends, or none. -/
def opens (n : ℕ) (strategy : Strategy) : Handling → Input → Bool
  | .selecting _ _ call, .go _ => call.opens n strategy
  | _, _ => true

/-- The client library does not panic, and the call that is to initialise the credits finds `n` backends, or none. -/
def calm (n : ℕ) (strategy : Strategy) : Handling → Input → Bool
  | _, .panic _ => false
  | .selecting _ _ call, .go _ => call.opens n strategy
  | _, _ => true

theorem opens_of_calm {n : ℕ} {strategy : Strategy} {t : Handling} {i : Input} (h : calm n strategy t i = true) :
    opens n strategy t i = true := by
  cases t with
  | selecting req healthy call =>
    cases i with
    | go elapsed => exact h
    | _ => rfl
  | _ => rfl

section

variable {n : ℕ} {w : ℕ} {parseUri : Text → Option Uri}

theorem rewriteRequest_ok (h : HeaderMap) (clientAddr backendAddr : SocketAddr) :
    ∃ headers, rewriteRequest h clientAddr backendAddr = .ok headers := by
  obtain ⟨ip, scheme, backendHost, heq⟩ := insertXForwardedHeaders_eq clientAddr backendAddr
  unfold rewriteRequest
  rw [heq h]
  exact ⟨_, rfl⟩

theorem quiet_chosen {req : Request} {healthy : List Backend} {result : Except Lb.Panic (Option ℕ)}
    (h : Valid healthy result) : (chosen parseUri req healthy result).quiet := by
  rcases h with ⟨-, rfl⟩ | ⟨index, hindex, rfl⟩
  · exact trivial
  · simp only [chosen, List.getElem?_eq_getElem hindex]
    obtain ⟨headers, hheaders⟩ := rewriteRequest_ok req.headers req.clientAddr healthy[index].addr
    rw [hheaders]
    split
    · exact fun message h => by cases h
    · exact trivial

theorem relay_panicked {exit : Exit} (h : ∀ message, exit ≠ .panicked message) (i : Input) (message : String) :
    exit.relay i ≠ .panicked message := by
  unfold Exit.relay
  split
  · exact fun h => by cases h
  · exact h message

theorem sound_chosen (strategy : Strategy) (req : Request) (healthy : List Backend)
    (result : Except Lb.Panic (Option ℕ)) : (chosen parseUri req healthy result).Sound n strategy := by
  rcases chosen_cases parseUri req healthy result with ⟨message, h⟩ | h | h | ⟨b, -, uri, headers, h⟩ <;> rw [h] <;>
    trivial

theorem Moved.sound {s s' : Proxy} {t t' : Handling} {i : Input} (hmoved : Moved w parseUri s t i s' t')
    (hprimed : Primed n s.strategy) (hlist : s.pool.healthyBackends.length ≤ n) (h : t.Sound n s.strategy)
    (hopens : opens n s.strategy t i = true) : Primed n s'.strategy ∧ t'.Sound n s'.strategy := by
  cases hmoved with
  | stay t hi => exact ⟨hprimed, h⟩
  | snapshot req rng elapsed => exact ⟨hprimed, hlist, rfl⟩
  | select req healthy hr elapsed =>
    obtain ⟨hhealthy, hcall⟩ := h
    exact ⟨primed_next w _ hprimed hopens hcall, hhealthy, sound_next w _ hprimed hopens hhealthy hcall⟩
  | choose req healthy hr elapsed => exact ⟨hprimed, sound_chosen _ req healthy _⟩
  | _ => exact ⟨hprimed, trivial⟩

theorem quiet_step {s : Proxy} {t : Handling} (hsound : t.Sound n s.strategy) {i : Input}
    (hcalm : calm n s.strategy t i = true) (h : t.quiet) : (handleRequest w parseUri s t i).2.quiet := by
  cases t with
  | start req rng =>
    cases i with
    | cancel => exact fun message h => by cases h
    | _ => exact trivial
  | selecting req healthy call =>
    cases i with
    | go elapsed =>
      rcases hr : call.result with _ | result
      · simp only [handleRequest, hr]
        exact trivial
      · simp only [handleRequest, hr]
        cases call with
        | done result' =>
          cases hr
          exact quiet_chosen hsound.2
        | _ => cases hr
    | _ => exact trivial
  | guarding b uri headers => cases i <;> exact trivial
  | awaiting b uri headers =>
    cases i with
    | cancel => exact fun message h => by cases h
    | panic message => cases hcalm
    | _ => exact trivial
  | recording guard resp => cases i <;> exact trivial
  | observing guard resp =>
    cases i with
    | go elapsed => cases guard <;> exact fun message h => by cases h
    | _ => exact trivial
  | leaving b exit => cases i <;> exact h
  | ended exit =>
    have hended : (handleRequest w parseUri s (.ended exit) i).2 = .ended (exit.relay i) := by cases i <;> rfl
    rw [hended]
    exact relay_panicked h i

theorem Handling.Sound.of_slotted {strategy strategy' : Strategy} (hkeep : Slotted n strategy → Slotted n strategy')
    {t : Handling} (h : t.Sound n strategy) : t.Sound n strategy' := by
  cases t with
  | selecting req healthy call => exact ⟨h.1, h.2.of_slotted hkeep⟩
  | _ => exact h

/-! ## Every interleaving -/

theorem modular_sound (w : ℕ) (parseUri : Text → Option Uri) (config : HealthCheckConfig) (bs : List Backend)
    (algorithm : Algorithm) :
    Modular (Service.check config) (fun r : Request × RandomRange => Handling.start r.1 r.2) (Service.handle w parseUri)
      (fun s => Kept bs algorithm s ∧ Primed bs.length s.proxy.strategy)
      (fun s t => t.Of algorithm ∧ t.Sound bs.length s.proxy.strategy)
      fun s t i => opens bs.length s.proxy.strategy t i = true where
  env s i h := ⟨⟨kept_check h.1 i, h.2⟩, fun _ ht => ht⟩
  spawn _ _ _ := ⟨trivial, trivial⟩
  self s t i h ht hopens := by
    obtain ⟨hkept, hof⟩ := (modular_kept w parseUri config bs algorithm).self s t i h.1 ht.1 trivial
    obtain ⟨hprimed, hsound⟩ := (handleRequest_moved w parseUri s.proxy t i).sound h.2 h.1.list.length_le ht.2 hopens
    exact ⟨⟨hkept, hprimed⟩, hof, hsound⟩
  other s t i u _ _ hu _ := by
    refine ⟨hu.1, hu.2.of_slotted fun hslots => ?_⟩
    show Slotted bs.length (handleRequest w parseUri s.proxy t i).1.strategy
    rcases (handleRequest_moved w parseUri s.proxy t i).strategy with hstrategy | ⟨call, hstrategy⟩
    · rw [hstrategy]
      exact hslots
    · rw [hstrategy]
      exact slotted_next w _ call hslots

theorem sound_start {p : Proxy} (hp : p.pool.Synced) {algorithm : Algorithm}
    (hstrategy : p.strategy = createStrategy algorithm) (metrics : GunghoMetrics) :
    Kept p.pool.backends p.strategy.algorithm (.start p metrics) ∧
      Primed p.pool.backends.length (Service.start p metrics).proxy.strategy := by
  refine ⟨kept_start hp metrics, ?_⟩
  show Primed _ p.strategy
  rw [hstrategy]
  exact primed_createStrategy ..

end

/-- In every interleaving of the checker's atomic steps with the requests' no request panics, for any algorithm, as
long as the client library does not and, with the weighted strategy, the call that initialises the credits finds all
backends healthy, or none. -/
theorem no_panic (w : ℕ) (parseUri : Text → Option Uri) (config : HealthCheckConfig) (p : Proxy) (hp : p.pool.Synced)
    (algorithm : Algorithm) (hstrategy : p.strategy = createStrategy algorithm) (metrics : GunghoMetrics)
    (choices : List (Sched TaskInput (Request × RandomRange) Input))
    (hcalm : Along (tending w parseUri config)
      (StepCond fun s t i => calm p.pool.backends.length s.proxy.strategy t i = true) ⟨.start p metrics, []⟩ choices) :
    ∀ t ∈ (run (tending w parseUri config) ⟨.start p metrics, []⟩ choices).2.threads, ∀ message,
      t.exit ≠ some (.panicked message) := by
  have hquiet := ((modular_sound w parseUri config p.pool.backends p.strategy.algorithm).under
    fun _ _ _ => opens_of_calm).also (P := Handling.quiet) (fun _ => trivial)
    fun _ _ _ _ ht hcalm h => quiet_step ht.2 hcalm h
  have hrun := holds_run hquiet choices ⟨sound_start hp hstrategy metrics, by simp⟩ hcalm
  rintro t ht message hexit
  have hsound := (hrun.2 t ht).2
  cases t with
  | ended exit =>
    cases hexit
    exact hsound message rfl
  | _ => cases hexit

/-- A weighted proxy: the first request finds both backends healthy, then the first backend fails and comes back. -/
theorem no_panic_recovered :
    let config : HealthCheckConfig := { unhealthyThreshold := 1, healthyThreshold := 1 }
    let p : Proxy := ⟨.pair, createStrategy .weightedRoundRobin, .new⟩
    let req : Request × RandomRange := (⟨.v4 ⟨192, 168, 1, 1⟩ 1234, none, ⟨[]⟩⟩, .lowest)
    let choices : List (Sched TaskInput (Request × RandomRange) Input) :=
      [.spawn req, .step 0 (.go 0), .step 0 (.go 0), .outside (.joined 0 .unhealthy)] ++
        List.replicate 7 (.outside .step) ++ [.spawn req, .step 1 (.go 0), .step 1 (.go 0)] ++
        .outside (.joined 0 .healthy) :: List.replicate 8 (.outside .step) ++ .spawn req ::
        List.replicate 10 (.step 2 (.go 0))
    ∀ t ∈ (run (tending 64 Uri.accept config) ⟨.start p .new, []⟩ choices).2.threads, ∀ message,
      t.exit ≠ some (.panicked message) := by
  intro config p req choices
  exact no_panic 64 Uri.accept config p (BackendPool.new_synced ..) .weightedRoundRobin rfl .new choices (by decide)

end Proxy

end Gungho
