/-
`Proxy::handle_request` from top to bottom, beside its steps. The requests that no other step comes between end
exactly as the function says, whatever comes in at their steps; so requests served one after the other are a run
of the whole function.
-/
import Gungho.Proxy.Handle

namespace Gungho.Proxy

open Gungho.Lib Gungho.Lb Gungho.Net Gungho.Pool

/-! ## The function as a whole -/

/-- What `timeout(self.timeout, self.client.request(req)).await` comes to. The future may be dropped there, and the
client may panic. -/
inductive Outcome where
  | response (status : StatusCode) (headers : HeaderMap) (ended : Bool)
  | error
  | elapsed
  | dropped
  | panicked (message : String)

def record (s : Proxy) (status : StatusCode) (backend : Option Backend) (elapsed : Nat) : Proxy :=
  { s with metrics := s.metrics.recordRequest status (label backend) elapsed }

/-- The arms of the `match` on the outcome. -/
def Outcome.arm (s : Proxy) (backend : Backend) (elapsed : Nat) : Outcome → Exit × Proxy
  | .response status headers ended =>
    (.returned (some backend) ⟨status, rewriteResponse headers, .incoming ended⟩,
      record s status (some backend) elapsed)
  | .error => (.returned (some backend) badGateway, record s .badGateway (some backend) elapsed)
  | .elapsed => (.returned (some backend) gatewayTimeout, record s .gatewayTimeout (some backend) elapsed)
  | .dropped => (.dropped, s)
  | .panicked message => (.panicked message, s)

/-- The drop of the guard on the way out. -/
def dropGuard (w : Nat) : Option Backend → Exit × Proxy → Exit × Proxy
  | none, (exit, s) => (exit, s)
  | some backend, (exit, s) => (exit, s.setMem (backend.decrementConnections w s.pool.mem))

/-- `handle_request` on a request that has the proxy to itself. -/
def handleWhole (w : Nat) (parseUri : Text → Option Uri) (s : Proxy) (req : Request) (rng : RandomRange)
    (outcome : Outcome) (elapsed : Nat) : Exit × Proxy :=
  let healthy := s.pool.healthyBackends
  let selected := s.strategy.select w s.pool.mem rng healthy (some req.clientAddr)
  let s := { s with strategy := selected.2 }
  match selected.1 with
  | .error panic => (.panicked panic.message, s)
  | .ok none => (.returned none serviceUnavailable, record s .serviceUnavailable none elapsed)
  | .ok (some index) =>
    match healthy[index]? with
    | none => (.panicked (Lb.Panic.indexOutOfBounds healthy.length index).message, s)
    | some backend =>
      match parseUri (backendUri backend.addr req.pathAndQuery) with
      | none => (.rejected badRequest, s)
      | some _ =>
        match rewriteRequest req.headers req.clientAddr backend.addr with
        | .error e => (.panicked e.message, s)
        | .ok _ =>
          dropGuard w (some backend)
            (outcome.arm (s.setMem (backend.incrementConnections w s.pool.mem)) backend elapsed)

/-- How a request ends that has the proxy to itself. The future may be dropped before its first poll. -/
def Handled (w : ℕ) (parseUri : Text → Option Uri) (s : Proxy) (r : Request × RandomRange) (exit : Exit) (s' : Proxy) :
    Prop :=
  (exit = .dropped ∧ s' = s) ∨ ∃ outcome elapsed, handleWhole w parseUri s r.1 r.2 outcome elapsed = (exit, s')

/-! ## What is left of a call -/

/-- From a state past the call of `select` to the end. -/
def Handling.rest (w : Nat) (outcome : Outcome) (elapsed : Nat) (s : Proxy) : Handling → Option (Exit × Proxy)
  | .start .. => none
  | .selecting .. => none
  | .guarding backend _ _ =>
    some (dropGuard w (some backend)
      (outcome.arm (s.setMem (backend.incrementConnections w s.pool.mem)) backend elapsed))
  | .awaiting backend _ _ => some (dropGuard w (some backend) (outcome.arm s backend elapsed))
  | .recording guard resp => some (dropGuard w guard (.returned guard resp, record s resp.status guard elapsed))
  | .observing guard resp =>
    some (dropGuard w guard
      (.returned guard resp, { s with metrics := s.metrics.observeDuration (label guard) elapsed }))
  | .leaving guard exit => some (dropGuard w (some guard) (exit, s))
  | .ended exit => some (exit, s)

/-- Past the call of `select`. -/
def Handling.past : Handling → Prop
  | .start .. => False
  | .selecting .. => False
  | _ => True

/-- The function is the call of `select` and what is left after it. -/
theorem handleWhole_rest (w : ℕ) (parseUri : Text → Option Uri) (s : Proxy) (req : Request) (rng : RandomRange)
    (outcome : Outcome) (elapsed : ℕ) :
    let selected := s.strategy.select w s.pool.mem rng s.pool.healthyBackends (some req.clientAddr)
    (chosen parseUri req s.pool.healthyBackends selected.1).rest w outcome elapsed { s with strategy := selected.2 } =
      some (handleWhole w parseUri s req rng outcome elapsed) := by
  simp only [handleWhole, chosen]
  generalize s.strategy.select w s.pool.mem rng s.pool.healthyBackends (some req.clientAddr) = selected
  obtain ⟨panic | _ | index, strategy⟩ := selected
  · rfl
  · rfl
  · dsimp only
    rcases s.pool.healthyBackends[index]? with _ | backend
    · rfl
    · dsimp only
      rcases parseUri (backendUri backend.addr req.pathAndQuery) with _ | uri
      · rfl
      · rcases rewriteRequest req.headers req.clientAddr backend.addr with e | headers <;> rfl

theorem relay_of_ne (exit : Exit) {i : Input} (hi : i ≠ .relayed) : exit.relay i = exit := by
  unfold Exit.relay
  split
  · exact absurd rfl hi
  · rfl

theorem chosen_past (parseUri : Text → Option Uri) (req : Request) (healthy : List Backend)
    (result : Except Lb.Panic (Option ℕ)) :
    (chosen parseUri req healthy result).past := by
  rcases chosen_cases parseUri req healthy result with ⟨message, h⟩ | h | h | ⟨backend, -, uri, headers, h⟩ <;>
    rw [h] <;> trivial

theorem Moved.past {w : ℕ} {parseUri : Text → Option Uri} {s s' : Proxy} {t t' : Handling} {i : Input}
    (h : Moved w parseUri s t i s' t') (ht : t.past) : t'.past := by
  cases h with
  | stay t hi => exact ht
  | snapshot req rng elapsed => exact ht.elim
  | select req healthy hr elapsed => exact ht.elim
  | choose req healthy hr elapsed => exact ht.elim
  | _ => trivial

/-- Past the call of `select`, what is left after a step is what was left before it, for some outcome and time. -/
theorem rest_step {w : ℕ} {parseUri : Text → Option Uri} {s : Proxy} {t : Handling} {i : Input} (hi : i ≠ .relayed)
    (ht : t.past) {outcome : Outcome} {elapsed : ℕ} {r : Exit × Proxy}
    (h : (handleRequest w parseUri s t i).2.rest w outcome elapsed (handleRequest w parseUri s t i).1 = some r) :
    ∃ outcome elapsed, t.rest w outcome elapsed s = some r := by
  cases t with
  | start req rng => exact ht.elim
  | selecting req healthy call => exact ht.elim
  | guarding backend uri headers => cases i <;> exact ⟨outcome, elapsed, h⟩
  | awaiting backend uri headers =>
    cases i with
    | go n => exact ⟨outcome, elapsed, h⟩
    | respond status headers ended => exact ⟨.response status headers ended, elapsed, h⟩
    | fail => exact ⟨.error, elapsed, h⟩
    | timeout => exact ⟨.elapsed, elapsed, h⟩
    | cancel => exact ⟨.dropped, elapsed, h⟩
    | panic message => exact ⟨.panicked message, elapsed, h⟩
    | relayed => exact absurd rfl hi
  | recording guard resp => cases i <;> exact ⟨outcome, elapsed, h⟩
  | observing guard resp =>
    cases i with
    | go n =>
      refine ⟨outcome, n, ?_⟩
      cases guard <;> exact h
    | _ => exact ⟨outcome, elapsed, h⟩
  | leaving guard exit => cases i <;> exact ⟨outcome, elapsed, h⟩
  | ended exit =>
    have hended : handleRequest w parseUri s (.ended exit) i = (s, .ended (exit.relay i)) := by cases i <;> rfl
    rw [hended, relay_of_ne exit hi] at h
    exact ⟨outcome, elapsed, h⟩

/-! ## The steps in a row -/

/-- A request gets from one state to another with no other step between its own, while its body is not relayed. -/
def Goes (w : ℕ) (parseUri : Text → Option Uri) (s s' : Proxy × Handling) : Prop :=
  ∃ inputs, .relayed ∉ inputs ∧ solo (handleRequest w parseUri) s inputs = s'

section

variable {w : ℕ} {parseUri : Text → Option Uri} {s s' s'' : Proxy × Handling}

theorem Goes.refl (s : Proxy × Handling) : Goes w parseUri s s := ⟨[], by simp, rfl⟩

theorem Goes.head {i : Input} (hi : .relayed ≠ i) (h : Goes w parseUri (handleRequest w parseUri s.1 s.2 i) s') :
    Goes w parseUri s s' := by
  obtain ⟨inputs, hinputs, rfl⟩ := h
  exact ⟨i :: inputs, List.not_mem_cons_of_ne_of_not_mem hi hinputs, rfl⟩

/-- What is left of a call comes about in some steps. -/
theorem goes_rest {s : Proxy} {t : Handling} {outcome : Outcome} {elapsed : ℕ} {r : Exit × Proxy}
    (h : t.rest w outcome elapsed s = some r) : Goes w parseUri (s, t) (r.2, .ended r.1) := by
  have hended : ∀ (s : Proxy) (exit : Exit), Goes w parseUri (s, .ended exit) (s, .ended exit) := fun s exit => .refl _
  have hleaving : ∀ (s : Proxy) (guard : Backend) (exit : Exit), Goes w parseUri (s, .leaving guard exit)
      ((dropGuard w (some guard) (exit, s)).2, .ended exit) := fun s guard exit =>
    .head (i := .go 0) (by simp) (hended _ exit)
  have hobserving : ∀ (s : Proxy) (guard : Option Backend) (resp : Response), Goes w parseUri (s, .observing guard resp)
      ((dropGuard w guard (.returned guard resp,
        { s with metrics := s.metrics.observeDuration (label guard) elapsed })).2, .ended (.returned guard resp)) := by
    rintro s (_ | backend) resp
    · exact .head (i := .go elapsed) (by simp) (hended _ _)
    · exact .head (i := .go elapsed) (by simp) (hleaving _ backend _)
  have hrecording : ∀ (s : Proxy) (guard : Option Backend) (resp : Response), Goes w parseUri (s, .recording guard resp)
        ((dropGuard w guard (.returned guard resp, record s resp.status guard elapsed)).2,
          .ended (.returned guard resp)) :=
    fun s guard resp => .head (i := .go 0) (by simp) (hobserving _ guard resp)
  have hawaiting : ∀ (s : Proxy) (backend : Backend) (uri : Uri) (headers : HeaderMap),
      Goes w parseUri (s, .awaiting backend uri headers)
      ((dropGuard w (some backend) (outcome.arm s backend elapsed)).2, .ended (outcome.arm s backend elapsed).1) := by
    intro s backend uri headers
    cases outcome with
    | response status fields ended => exact .head (i := .respond status fields ended) (by simp) (hrecording s _ _)
    | error => exact .head (i := .fail) (by simp) (hrecording s _ _)
    | elapsed => exact .head (i := .timeout) (by simp) (hrecording s _ _)
    | dropped => exact .head (i := .cancel) (by simp) (hleaving s backend _)
    | panicked message => exact .head (i := .panic message) (by simp) (hleaving s backend _)
  cases t with
  | start req rng => cases h
  | selecting req healthy call => cases h
  | guarding backend uri headers =>
    cases h
    exact .head (i := .go 0) (by simp) (hawaiting _ backend uri headers)
  | awaiting backend uri headers =>
    cases h
    exact hawaiting s backend uri headers
  | recording guard resp =>
    cases h
    cases guard <;> exact hrecording s _ resp
  | observing guard resp =>
    cases h
    cases guard <;> exact hobserving s _ resp
  | leaving guard exit =>
    cases h
    exact hleaving s guard exit
  | ended exit =>
    cases h
    exact hended s exit

/-- However a call past its `select` ends on its own, it is what was left of it. -/
theorem rest_of_goes {s s' : Proxy} {t : Handling} {exit : Exit} (ht : t.past)
    (h : Goes w parseUri (s, t) (s', .ended exit)) :
    ∃ outcome elapsed, t.rest w outcome elapsed s = some (exit, s') := by
  obtain ⟨inputs, hinputs, h⟩ := h
  induction inputs generalizing s t with
  | nil =>
    cases h
    exact ⟨.error, 0, rfl⟩
  | cons i inputs ih =>
    obtain ⟨hi, hinputs⟩ := List.ne_and_not_mem_of_not_mem_cons hinputs
    obtain ⟨outcome, elapsed, hrest⟩ := ih ((handleRequest_moved w parseUri s t i).past ht) hinputs h
    exact rest_step (Ne.symm hi) ht hrest

theorem next_done (mem : Mem) (strategy : Strategy) (result : Except Lb.Panic (Option ℕ)) :
    (Call.done result).next w mem strategy = (strategy, .done result) := by
  cases strategy <;> rfl

theorem alone_done (mem : Mem) (n : ℕ) (strategy : Strategy) (result : Except Lb.Panic (Option ℕ)) :
    Call.alone w mem n (strategy, .done result) = (strategy, .done result) := by
  induction n with
  | zero => rfl
  | succ n ih =>
    rw [Call.alone, next_done]
    exact ih

/-- A call on its own ends in one way. -/
theorem alone_unique {mem : Mem} {m n : ℕ} {p : Strategy × Call} {strategy strategy' : Strategy}
    {result result' : Except Lb.Panic (Option ℕ)} (hm : Call.alone w mem m p = (strategy, .done result))
    (hn : Call.alone w mem n p = (strategy', .done result')) : (result, strategy) = (result', strategy') := by
  have hmn : Call.alone w mem (m + n) p = (strategy, .done result) := by rw [Call.alone_add, hm, alone_done]
  have hnm : Call.alone w mem (m + n) p = (strategy', .done result') := by
    rw [Nat.add_comm, Call.alone_add, hn, alone_done]
  cases hmn.symm.trans hnm
  rfl

/-- A call of `select` that ends after some steps on its own ends so in the request. -/
theorem goes_alone {s : Proxy} {req : Request} {healthy : List Backend} {n : ℕ} {call : Call} {strategy : Strategy}
    {result : Except Lb.Panic (Option ℕ)} (h : Call.alone w s.pool.mem n (s.strategy, call) = (strategy, .done result))
    (hgoes : Goes w parseUri ({ s with strategy := strategy }, chosen parseUri req healthy result) s') :
    Goes w parseUri (s, .selecting req healthy call) s' := by
  induction n generalizing s call with
  | zero =>
    cases h
    exact .head (i := .go 0) (by simp) hgoes
  | succ n ih =>
    rcases hr : call.result with _ | result'
    · refine .head (i := .go 0) (by simp) ?_
      simp only [handleRequest, hr]
      exact ih h hgoes
    · obtain rfl : call = .done result' := by
        cases call with
        | done result'' => cases hr; rfl
        | _ => cases hr
      rw [alone_done] at h
      cases h
      exact .head (i := .go 0) (by simp) hgoes

/-- However a request in its call of `select` ends on its own, the call ends by some steps on its own and the rest
is what is left then. -/
theorem alone_of_goes {s s' : Proxy} {req : Request} {healthy : List Backend} {call : Call} {exit : Exit}
    (h : Goes w parseUri (s, .selecting req healthy call) (s', .ended exit)) :
    ∃ n strategy result, Call.alone w s.pool.mem n (s.strategy, call) = (strategy, .done result) ∧
      ∃ outcome elapsed, (chosen parseUri req healthy result).rest w outcome elapsed { s with strategy := strategy } =
        some (exit, s') := by
  obtain ⟨inputs, hinputs, h⟩ := h
  induction inputs generalizing s call with
  | nil => cases h
  | cons i inputs ih =>
    obtain ⟨-, hrest⟩ := List.ne_and_not_mem_of_not_mem_cons hinputs
    cases i with
    | go n =>
      have h : solo (handleRequest w parseUri)
          (handleRequest w parseUri s (.selecting req healthy call) (.go n)) inputs =
          (s', .ended exit) := h
      rcases hr : call.result with _ | result
      · simp only [handleRequest, hr] at h
        obtain ⟨n, strategy, result, halone, hleft⟩ := ih hrest h
        exact ⟨n + 1, strategy, result, halone, hleft⟩
      · simp only [handleRequest, hr] at h
        obtain rfl : call = .done result := by
          cases call with
          | done result'' => cases hr; rfl
          | _ => cases hr
        exact ⟨0, s.strategy, result, rfl, rest_of_goes (chosen_past parseUri req healthy result) ⟨inputs, hrest, h⟩⟩
    | _ => exact ih hrest h

/-- A request with the proxy to itself ends in the ways of the function and in no other. -/
theorem goes_iff_handled (s s' : Proxy) (r : Request × RandomRange) (exit : Exit) :
    Goes w parseUri (s, .start r.1 r.2) (s', .ended exit) ↔ Handled w parseUri s r exit s' := by
  obtain ⟨req, rng⟩ := r
  obtain ⟨n, hselect⟩ := select_alone w s.pool.mem rng s.strategy s.pool.healthyBackends (some req.clientAddr)
  constructor
  · rintro ⟨inputs, hinputs, h⟩
    induction inputs with
    | nil => cases h
    | cons i inputs ih =>
      obtain ⟨-, hrest⟩ := List.ne_and_not_mem_of_not_mem_cons hinputs
      cases i with
      | go elapsed =>
        obtain ⟨m, strategy, result, halone, outcome, elapsed, hleft⟩ := alone_of_goes ⟨inputs, hrest, h⟩
        obtain ⟨rfl, rfl⟩ := Prod.ext_iff.1 (alone_unique halone hselect)
        refine .inr ⟨outcome, elapsed, ?_⟩
        rw [handleWhole_rest] at hleft
        exact Option.some.inj hleft
      | cancel =>
        obtain ⟨outcome, elapsed, hleft⟩ := rest_of_goes (t := .ended .dropped) trivial ⟨inputs, hrest, h⟩
        cases hleft
        exact .inl ⟨rfl, rfl⟩
      | _ => exact ih hrest h
  · rintro (⟨rfl, rfl⟩ | ⟨outcome, elapsed, h⟩)
    · exact .head (i := .cancel) (by simp) (.refl _)
    · have hleft := handleWhole_rest w parseUri s req rng outcome elapsed
      rw [h] at hleft
      exact .head (i := .go 0) (by simp) (goes_alone hselect (goes_rest hleft))

/-! ## One request after the other -/

/-- How requests end that come one after the other. -/
inductive HandledInTurn (w : ℕ) (parseUri : Text → Option Uri) :
    Proxy → List (Request × RandomRange) → List Exit → Proxy → Prop
  | nil (s : Proxy) : HandledInTurn w parseUri s [] [] s
  | cons {s s' s'' : Proxy} {r : Request × RandomRange} {exit : Exit} {rs : List (Request × RandomRange)}
    {exits : List Exit} (h : Handled w parseUri s r exit s') (hrest : HandledInTurn w parseUri s' rs exits s'') :
    HandledInTurn w parseUri s (r :: rs) (exit :: exits) s''

theorem soloInTurn_iff (s s' : Proxy) (rs : List (Request × RandomRange)) (exits : List Exit) :
    (∃ turns : List ((Request × RandomRange) × List Input), turns.map Prod.fst = rs ∧
      (∀ turn ∈ turns, .relayed ∉ turn.2) ∧
      soloInTurn (fun r => .start r.1 r.2) (handleRequest w parseUri) s turns = (s', exits.map .ended)) ↔
    HandledInTurn w parseUri s rs exits s' := by
  constructor
  · rintro ⟨turns, rfl, hinputs, h⟩
    induction turns generalizing s exits with
    | nil =>
      obtain ⟨rfl, hexits⟩ := Prod.ext_iff.1 h
      rw [List.map_eq_nil_iff.1 hexits.symm]
      exact .nil _
    | cons turn turns ih =>
      obtain ⟨hs, hexits⟩ := Prod.ext_iff.1 h
      obtain ⟨exit, exits, rfl, hexit, hrest⟩ := List.map_eq_cons_iff.1 hexits.symm
      have hgoes : Goes w parseUri (s, .start turn.1.1 turn.1.2)
          ((solo (handleRequest w parseUri) (s, .start turn.1.1 turn.1.2) turn.2).1, .ended exit) :=
        ⟨turn.2, hinputs turn List.mem_cons_self, Prod.ext rfl hexit.symm⟩
      exact .cons ((goes_iff_handled _ _ _ _).1 hgoes)
        (ih _ exits (fun t ht => hinputs t (List.mem_cons_of_mem _ ht)) (Prod.ext hs hrest.symm))
  · intro h
    induction h with
    | nil s => exact ⟨[], rfl, by simp, rfl⟩
    | @cons s s' s'' r exit rs exits h _ ih =>
      obtain ⟨inputs, hinputs, hsolo⟩ := (goes_iff_handled _ _ _ _).2 h
      obtain ⟨turns, rfl, hturns, hrest⟩ := ih
      refine ⟨(r, inputs) :: turns, rfl, ?_, ?_⟩
      · rintro turn hturn
        rcases List.mem_cons.1 hturn with rfl | hturn
        · exact hinputs
        · exact hturns turn hturn
      · simp only [soloInTurn, hsolo, hrest, List.map_cons]

/-- The runs of the proxy in which each request takes its steps before the next arrives end as the function says
for one request after the other, and every such end is one of a run. -/
theorem in_turn_iff (s s' : Proxy) (rs : List (Request × RandomRange)) (exits : List Exit) :
    (∃ turns : List ((Request × RandomRange) × List Input), turns.map Prod.fst = rs ∧
      (∀ turn ∈ turns, .relayed ∉ turn.2) ∧
      (run (serving w parseUri) (idle s) (inTurn 0 turns)).2 = ⟨s', exits.map .ended⟩) ↔
    HandledInTurn w parseUri s rs exits s' := by
  rw [← soloInTurn_iff]
  refine exists_congr fun turns => and_congr_right fun _ => and_congr_right fun _ => ?_
  have hrun : (run (serving w parseUri) (idle s) (inTurn 0 turns)).2 =
      ⟨(soloInTurn (fun r => .start r.1 r.2) (handleRequest w parseUri) s turns).1,
        (soloInTurn (fun r => .start r.1 r.2) (handleRequest w parseUri) s turns).2⟩ :=
    run_inTurn upkeep (fun r : Request × RandomRange => Handling.start r.1 r.2) turns s []
  rw [hrun, Threads.mk.injEq, Prod.ext_iff]

end

end Gungho.Proxy
