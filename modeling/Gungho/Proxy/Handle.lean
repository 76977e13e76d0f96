/-
`Proxy::handle_request` in `proxy.rs`, step by step: the snapshot and the call of `select`, the
rewriting of the request, the connection guard, the await of the exchange, the two metrics updates and
the drop of the guard. Any number of requests run at a time, each between its atomic steps, and mark
calls change flags and the healthy list meanwhile. What an await yields is an input of the step, and so
is that the future is dropped there. The parser of `http::Uri` is a parameter; the URI it yields and the
rewritten headers are those of the request while it is forwarded.
-/
import Gungho.Lb.Call
import Gungho.Lib.Threads
import Gungho.Metrics
import Gungho.Proxy.Rewrite

namespace Gungho

open Gungho.Lib Gungho.Lb Gungho.Net Gungho.Pool

/-- What the requests share. -/
structure Proxy where
  pool : BackendPool
  strategy : Strategy
  metrics : GunghoMetrics

namespace Proxy

def setMem (s : Proxy) (mem : Mem) : Proxy := { s with pool := { s.pool with mem := mem } }

/-! ## Messages -/

/-- What `handle_request` reads of a request. -/
structure Request where
  clientAddr : SocketAddr
  pathAndQuery : Option Text
  headers : HeaderMap

/-- The body of a response: a fixed text, or the stream from the backend, which has come to its end
or has not. -/
inductive Body where
  | full (text : Text)
  | incoming (ended : Bool)
  deriving DecidableEq

structure Response where
  status : StatusCode
  headers : HeaderMap
  body : Body
  deriving DecidableEq

def buildErrorResponse (status : StatusCode) (text : Text) : Response := ⟨status, ⟨[]⟩, .full text⟩

def serviceUnavailable : Response := buildErrorResponse .serviceUnavailable "No healthy backends available".toList
def badRequest : Response := buildErrorResponse .badRequest "Bad Request".toList
def badGateway : Response := buildErrorResponse .badGateway "Backend error".toList
def gatewayTimeout : Response := buildErrorResponse .gatewayTimeout "Gateway Timeout".toList

/-! ## URIs -/

/-- An absolute URI with the scheme `http`, of which the connector takes the authority and the request
line the path and query. -/
structure Uri where
  authority : Text
  pathAndQuery : Text
  deriving DecidableEq

/-- A path, a query or a fragment ends the authority. -/
def endsAuthority (c : Char) : Bool := c == '/' || c == '?' || c == '#'

/-- The part before the fragment. -/
def beforeFragment (s : Text) : Text := s.takeWhile (· ≠ '#')

/-- The URI that `http://` followed by `s` stands for. -/
def Uri.ofHttp (s : Text) : Uri where
  authority := s.takeWhile (!endsAuthority ·)
  pathAndQuery :=
    let rest := beforeFragment (s.dropWhile (!endsAuthority ·))
    if rest = [] then ['/'] else rest

/-- A parser that takes every text for a URI. -/
def Uri.accept (text : Text) : Option Uri := some (.ofHttp (text.drop 7))

/-- The text that is parsed as the URI of the request to the backend. -/
def backendUri (backendAddr : SocketAddr) (pathAndQuery : Option Text) : Text :=
  "http://".toList ++ backendAddr.toText ++ pathAndQuery.getD "/".toList

/-! ## The state of a request -/

/-- How a call of `handle_request` ends. A returned response was recorded under the label of its
backend or under `none`; a rejected request is the one whose URI does not parse. -/
inductive Exit where
  | returned (backend : Option Backend) (resp : Response)
  | rejected (resp : Response)
  | dropped
  | panicked (message : String)
  deriving DecidableEq

/-- Where a call of `handle_request` is. From `awaiting` to `leaving` it holds a guard on its
backend; a response of its own making it records without one. -/
inductive Handling where
  | start (req : Request) (rng : RandomRange)
  | selecting (req : Request) (healthy : List Backend) (call : Call)
  | guarding (backend : Backend) (uri : Uri) (headers : HeaderMap)
  | awaiting (backend : Backend) (uri : Uri) (headers : HeaderMap)
  | recording (guard : Option Backend) (resp : Response)
  | observing (guard : Option Backend) (resp : Response)
  | leaving (guard : Backend) (exit : Exit)
  | ended (exit : Exit)

/-- What the next step of a request depends on: the clock, what the await yields, or that the body
of its response has been relayed or dropped. -/
inductive Input where
  | go (elapsed : Nat)
  | respond (status : StatusCode) (headers : HeaderMap) (ended : Bool)
  | fail
  | timeout
  | cancel
  | panic (message : String)
  | relayed

/-- The `backend` label. -/
def label (backend : Option Backend) : Text := backend.elim "none".toList fun b => b.addr.toText

/-- After the call has returned, the stream of its response is passed on and comes to its end. -/
def Exit.relay : Exit → Input → Exit
  | .returned backend ⟨status, headers, .incoming false⟩, .relayed =>
    .returned backend ⟨status, headers, .incoming true⟩
  | exit, _ => exit

/-! ## The steps -/

section

variable (w : Nat) (parseUri : Text → Option Uri)

/-- From the result of `select` up to the guard. -/
def chosen (req : Request) (healthy : List Backend) : Except Lb.Panic (Option Nat) → Handling
  | .error panic => .ended (.panicked panic.message)
  | .ok none => .recording none serviceUnavailable
  | .ok (some index) =>
    match healthy[index]? with
    | none => .ended (.panicked (Lb.Panic.indexOutOfBounds healthy.length index).message)
    | some backend =>
      match parseUri (backendUri backend.addr req.pathAndQuery) with
      | none => .ended (.rejected badRequest)
      | some uri =>
        match rewriteRequest req.headers req.clientAddr backend.addr with
        | .error e => .ended (.panicked e.message)
        | .ok headers => .guarding backend uri headers

/-- The next step of a call of `handle_request`. -/
def handleRequest (s : Proxy) : Handling → Input → Proxy × Handling
  | .start req rng, .go _ =>
    (s, .selecting req s.pool.healthyBackends (.enter s.pool.healthyBackends (some req.clientAddr) rng))
  -- the future may be dropped before its first poll
  | .start _ _, .cancel => (s, .ended .dropped)
  | .selecting req healthy call, .go _ =>
    match call.result with
    | none =>
      let stepped := call.next w s.pool.mem s.strategy
      ({ s with strategy := stepped.1 }, .selecting req healthy stepped.2)
    | some result => (s, chosen parseUri req healthy result)
  -- `ConnectionGuard::new`, after which the request is forwarded
  | .guarding backend uri headers, .go _ =>
    (s.setMem (backend.incrementConnections w s.pool.mem), .awaiting backend uri headers)
  | .awaiting backend _ _, .respond status headers ended =>
    (s, .recording (some backend) ⟨status, rewriteResponse headers, .incoming ended⟩)
  | .awaiting backend _ _, .fail => (s, .recording (some backend) badGateway)
  | .awaiting backend _ _, .timeout => (s, .recording (some backend) gatewayTimeout)
  | .awaiting backend _ _, .cancel => (s, .leaving backend .dropped)
  | .awaiting backend _ _, .panic message => (s, .leaving backend (.panicked message))
  -- `record_request`, which does its two updates one after the other
  | .recording guard resp, .go _ =>
    ({ s with metrics := s.metrics.incRequests resp.status (label guard) }, .observing guard resp)
  | .observing guard resp, .go elapsed =>
    ({ s with metrics := s.metrics.observeDuration (label guard) elapsed },
      match guard with
      | none => .ended (.returned none resp)
      | some backend => .leaving backend (.returned (some backend) resp))
  -- the drop of the guard
  | .leaving guard exit, .go _ => (s.setMem (guard.decrementConnections w s.pool.mem), .ended exit)
  | .ended exit, i => (s, .ended (exit.relay i))
  | t, _ => (s, t)

/-- The atomic steps of mark calls: a flag is stored, the healthy list is replaced. -/
inductive Upkeep where
  | setHealth (backend : Backend) (healthy : Bool)
  | replaceCache (healthy : List Backend)

def upkeep (s : Proxy) : Upkeep → Proxy
  | .setHealth backend healthy => s.setMem (backend.setHealth healthy s.pool.mem)
  | .replaceCache healthy => { s with pool := { s.pool with healthyCache := healthy } }

/-- Requests arrive, requests take steps, the pool changes. -/
abbrev Choice := Sched Upkeep (Request × RandomRange) Input

def serving (s : Threads Proxy Handling) : Choice → Unit × Threads Proxy Handling :=
  interleave upkeep (fun r => .start r.1 r.2) (handleRequest w parseUri) s

/-- A proxy before any request. -/
def idle (s : Proxy) : Threads Proxy Handling := ⟨s, []⟩

/-- A proxy with one backend. -/
def oneBackend : Proxy :=
  ⟨.new .init [⟨0, .v4 ⟨10, 0, 0, 1⟩ 80, 1⟩] (List.nodup_singleton _), .roundRobin .new, .new⟩

/-- A request that is forwarded and answered with 200. -/
def oneAnswered (ended : Bool) : List Choice :=
  let req : Request × RandomRange := (⟨.v4 ⟨192, 168, 1, 1⟩ 1234, none, ⟨[]⟩⟩, .lowest)
  [.spawn req, .step 0 (.go 0), .step 0 (.go 0), .step 0 (.go 0), .step 0 (.go 0), .step 0 (.respond .ok ⟨[]⟩ ended),
    .step 0 (.go 0), .step 0 (.go 0), .step 0 (.go 0)]

end

/-! ## What a request holds and returns -/

/-- The backend on which the request holds a guard. -/
def Handling.guard : Handling → Option Backend
  | .awaiting backend _ _ => some backend
  | .recording guard _ => guard
  | .observing guard _ => guard
  | .leaving guard _ => some guard
  | _ => none

def Handling.exit : Handling → Option Exit
  | .ended exit => some exit
  | _ => none

def Exit.response : Exit → Option Response
  | .returned _ resp => some resp
  | .rejected resp => some resp
  | _ => none

/-- The response the call has returned. -/
def Handling.response (t : Handling) : Option Response := t.exit.bind Exit.response

/-! ## What a step does -/

/-- The moves of a request, one for each kind of step. -/
inductive Moved (w : Nat) (parseUri : Text → Option Uri) (s : Proxy) : Handling → Input → Proxy → Handling → Prop
  | stay (t : Handling) {i : Input} (hi : ∀ elapsed, i ≠ .go elapsed) : Moved w parseUri s t i s t
  | unpolled (req : Request) (rng : RandomRange) : Moved w parseUri s (.start req rng) .cancel s (.ended .dropped)
  | snapshot (req : Request) (rng : RandomRange) (elapsed : Nat) : Moved w parseUri s (.start req rng) (.go elapsed)
      s (.selecting req s.pool.healthyBackends (.enter s.pool.healthyBackends (some req.clientAddr) rng))
  | select (req : Request) (healthy : List Backend) {call : Call} (hr : call.result = none) (elapsed : Nat) :
    Moved w parseUri s (.selecting req healthy call) (.go elapsed)
      { s with strategy := (call.next w s.pool.mem s.strategy).1 }
      (.selecting req healthy (call.next w s.pool.mem s.strategy).2)
  | choose (req : Request) (healthy : List Backend) {call : Call} {result : Except Lb.Panic (Option Nat)}
      (hr : call.result = some result) (elapsed : Nat) :
    Moved w parseUri s (.selecting req healthy call) (.go elapsed) s (chosen parseUri req healthy result)
  | guard (backend : Backend) (uri : Uri) (headers : HeaderMap) (elapsed : Nat) :
    Moved w parseUri s (.guarding backend uri headers) (.go elapsed)
      (s.setMem (backend.incrementConnections w s.pool.mem)) (.awaiting backend uri headers)
  | wait (backend : Backend) (uri : Uri) (headers : HeaderMap) (elapsed : Nat) :
    Moved w parseUri s (.awaiting backend uri headers) (.go elapsed) s (.awaiting backend uri headers)
  | answer (backend : Backend) (uri : Uri) (headers : HeaderMap) {i : Input} (hi : ∀ elapsed, i ≠ .go elapsed)
      (resp : Response) : Moved w parseUri s (.awaiting backend uri headers) i s (.recording (some backend) resp)
  | unwind (backend : Backend) (uri : Uri) (headers : HeaderMap) {i : Input} (hi : ∀ elapsed, i ≠ .go elapsed)
      {exit : Exit} (hexit : exit = .dropped ∨ ∃ message, exit = .panicked message) :
    Moved w parseUri s (.awaiting backend uri headers) i s (.leaving backend exit)
  | count (guard : Option Backend) (resp : Response) (elapsed : Nat) :
    Moved w parseUri s (.recording guard resp) (.go elapsed)
      { s with metrics := s.metrics.incRequests resp.status (label guard) } (.observing guard resp)
  | observe (backend : Backend) (resp : Response) (elapsed : Nat) :
    Moved w parseUri s (.observing (some backend) resp) (.go elapsed)
      { s with metrics := s.metrics.observeDuration (label (some backend)) elapsed }
      (.leaving backend (.returned (some backend) resp))
  | observeNone (resp : Response) (elapsed : Nat) : Moved w parseUri s (.observing none resp) (.go elapsed)
      { s with metrics := s.metrics.observeDuration (label none) elapsed } (.ended (.returned none resp))
  | release (guard : Backend) (exit : Exit) (elapsed : Nat) : Moved w parseUri s (.leaving guard exit) (.go elapsed)
      (s.setMem (guard.decrementConnections w s.pool.mem)) (.ended exit)
  | relay (exit : Exit) (i : Input) : Moved w parseUri s (.ended exit) i s (.ended (exit.relay i))

theorem handleRequest_moved (w : Nat) (parseUri : Text → Option Uri) (s : Proxy) (t : Handling) (i : Input) :
    Moved w parseUri s t i (handleRequest w parseUri s t i).1 (handleRequest w parseUri s t i).2 := by
  cases t with
  | start req rng =>
    cases i with
    | go elapsed => exact .snapshot req rng elapsed
    | cancel => exact .unpolled req rng
    | _ => exact .stay _ nofun
  | selecting req healthy call =>
    cases i with
    | go elapsed =>
      rcases hr : call.result with _ | result
      · simp only [handleRequest, hr]
        exact .select req healthy hr elapsed
      · simp only [handleRequest, hr]
        exact .choose req healthy hr elapsed
    | _ => exact .stay _ nofun
  | guarding backend uri headers =>
    cases i with
    | go elapsed => exact .guard backend uri headers elapsed
    | _ => exact .stay _ nofun
  | awaiting backend uri headers =>
    cases i with
    | go elapsed => exact .wait backend uri headers elapsed
    | respond status headers ended => exact .answer backend uri _ (by nofun) _
    | fail => exact .answer backend uri headers (by nofun) badGateway
    | timeout => exact .answer backend uri headers (by nofun) gatewayTimeout
    | cancel => exact .unwind backend uri headers (by nofun) (.inl rfl)
    | panic message => exact .unwind backend uri headers (by nofun) (.inr ⟨message, rfl⟩)
    | relayed => exact .stay _ nofun
  | recording guard resp =>
    cases i with
    | go elapsed => exact .count guard resp elapsed
    | _ => exact .stay _ nofun
  | observing guard resp =>
    cases i with
    | go elapsed =>
      cases guard with
      | none => exact .observeNone resp elapsed
      | some backend => exact .observe backend resp elapsed
    | _ => exact .stay _ nofun
  | leaving guard exit =>
    cases i with
    | go elapsed => exact .release guard exit elapsed
    | _ => exact .stay _ nofun
  | ended exit => cases i <;> exact .relay exit _

/-- Where the result of `select` leads. -/
theorem chosen_cases (parseUri : Text → Option Uri) (req : Request) (healthy : List Backend)
    (result : Except Lb.Panic (Option Nat)) :
    (∃ message, chosen parseUri req healthy result = .ended (.panicked message)) ∨
    chosen parseUri req healthy result = .recording none serviceUnavailable ∨
    chosen parseUri req healthy result = .ended (.rejected badRequest) ∨
    ∃ backend ∈ healthy, ∃ uri headers, chosen parseUri req healthy result = .guarding backend uri headers := by
  rcases result with panic | _ | index
  · exact .inl ⟨panic.message, rfl⟩
  · exact .inr (.inl rfl)
  · simp only [chosen]
    split
    · exact .inl ⟨_, rfl⟩
    · rename_i backend hb
      split
      · exact .inr (.inr (.inl rfl))
      · split
        · exact .inl ⟨_, rfl⟩
        · exact .inr (.inr (.inr ⟨backend, List.mem_of_getElem? hb, _, _, rfl⟩))

theorem chosen_guard (parseUri : Text → Option Uri) (req : Request) (healthy : List Backend)
    (result : Except Lb.Panic (Option Nat)) :
    (chosen parseUri req healthy result).guard = none := by
  rcases chosen_cases parseUri req healthy result with ⟨message, h⟩ | h | h | ⟨backend, -, uri, headers, h⟩ <;>
    rw [h] <;> rfl

/-- A step takes a guard and counts its connection, gives one up and takes its connection off, or
leaves guards and connections alone. -/
theorem Moved.guards {w : Nat} {parseUri : Text → Option Uri} {s s' : Proxy} {t t' : Handling} {i : Input}
    (h : Moved w parseUri s t i s' t') :
    (s'.pool.mem = s.pool.mem ∧ t'.guard = t.guard) ∨
    (∃ b, t.guard = none ∧ t'.guard = some b ∧ s'.pool.mem = b.incrementConnections w s.pool.mem) ∨
    ∃ b exit, t = .leaving b exit ∧ t'.guard = none ∧ s'.pool.mem = b.decrementConnections w s.pool.mem := by
  cases h with
  | choose req healthy hr elapsed => exact .inl ⟨rfl, chosen_guard parseUri req healthy _⟩
  | guard backend uri headers elapsed => exact .inr (.inl ⟨backend, rfl, rfl, rfl⟩)
  | release guard exit elapsed => exact .inr (.inr ⟨guard, exit, rfl, rfl, rfl⟩)
  | _ => exact .inl ⟨rfl, rfl⟩

/-- A step changes the strategy by a step of a call, if at all. -/
theorem Moved.strategy {w : Nat} {parseUri : Text → Option Uri} {s s' : Proxy} {t t' : Handling} {i : Input}
    (h : Moved w parseUri s t i s' t') :
    s'.strategy = s.strategy ∨ ∃ call : Call, s'.strategy = (call.next w s.pool.mem s.strategy).1 := by
  cases h with
  | select req healthy hr elapsed => exact .inr ⟨_, rfl⟩
  | _ => exact .inl rfl

end Proxy

end Gungho
