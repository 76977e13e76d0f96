/-
What the proxy does to the headers of a message it passes on: `insert_x_forwarded_headers`,
`strip_hop_by_hop_headers` and `propagate_or_strip_otel_context` in `proxy.rs`.
-/
import Gungho.Proxy.Header

namespace Gungho.Proxy

open Gungho.Lib Gungho.Net

/-! ## Header names -/

def host : HeaderName := .ofStr "host".toList (by decide)
def xForwardedFor : HeaderName := .ofStr "X-Forwarded-For".toList (by decide)
def xForwardedProto : HeaderName := .ofStr "X-Forwarded-Proto".toList (by decide)
def xForwardedHost : HeaderName := .ofStr "X-Forwarded-Host".toList (by decide)
def connection : HeaderName := .ofStr "Connection".toList (by decide)
def keepAlive : HeaderName := .ofStr "Keep-Alive".toList (by decide)
def proxyAuthenticate : HeaderName := .ofStr "Proxy-Authenticate".toList (by decide)
def proxyAuthorization : HeaderName := .ofStr "Proxy-Authorization".toList (by decide)
def te : HeaderName := .ofStr "TE".toList (by decide)
def trailers : HeaderName := .ofStr "Trailers".toList (by decide)
def transferEncoding : HeaderName := .ofStr "Transfer-Encoding".toList (by decide)
def upgrade : HeaderName := .ofStr "Upgrade".toList (by decide)
def traceparent : HeaderName := .ofStr "traceparent".toList (by decide)
def tracestate : HeaderName := .ofStr "tracestate".toList (by decide)
def baggage : HeaderName := .ofStr "baggage".toList (by decide)

/-! ## Forwarding headers -/

/-- The panics of `expect` on a value that does not parse. -/
inductive ExpectError where
  | invalidIp
  | invalidScheme
  | invalidHost
  deriving DecidableEq, Repr

def ExpectError.message : ExpectError → String
  | .invalidIp => "Invalid IP"
  | .invalidScheme => "Invalid Scheme"
  | .invalidHost => "Invalid Host"

/-- `s.parse().expect(..)`. -/
def parseValue (s : Text) (e : ExpectError) : Except ExpectError HeaderValue :=
  match HeaderValue.fromStr s with
  | some v => .ok v
  | none => .error e

def insertXForwardedHeaders (h : HeaderMap) (clientAddr backendAddr : SocketAddr) :
    Except ExpectError HeaderMap := do
  let h := h.insert xForwardedFor (← parseValue clientAddr.ip.toText .invalidIp)
  let h := h.insert xForwardedProto (← parseValue "http".toList .invalidScheme)
  -- read before `Host` is replaced; without a `Host` the last insert is skipped
  let originalHost := h.get host
  let h := h.insert host (← parseValue backendAddr.toText .invalidHost)
  match originalHost with
  | some value => return h.insert xForwardedHost value
  | none => return h

/-! ## Hop-by-hop headers -/

def hopByHopHeaders : List HeaderName :=
  [connection, keepAlive, proxyAuthenticate, proxyAuthorization, te, trailers, transferEncoding, upgrade]

def stripHopByHopHeaders (h : HeaderMap) : HeaderMap := h.removeAll hopByHopHeaders

/-! ## Trace context -/

def isHexDigitLowercase (s : Text) : Bool := s.all fun c => ('0' ≤ c ∧ c ≤ '9') ∨ ('a' ≤ c ∧ c ≤ 'f')

def isAllZeros (s : Text) : Bool := s.all (· = '0')

/-- The checks on the parts of a `traceparent` split at the dashes. -/
def validParts : List Text → Bool
  | [version, traceId, parentId, flags] =>
    version == "00".toList && traceId.length == 32 && parentId.length == 16 && flags.length == 2 &&
      isHexDigitLowercase traceId && isHexDigitLowercase parentId && isHexDigitLowercase flags &&
      !isAllZeros traceId && !isAllZeros parentId
  | _ => false

/-- Reads the first `traceparent` value only. -/
def validateTraceparent (h : HeaderMap) : Bool :=
  match h.get traceparent with
  | none => false
  | some value =>
    match value.toStr with
    | none => false
    | some text => validParts (text.splitOn '-')

def otelHeaders : List HeaderName := [traceparent, tracestate, baggage]

def stripIncompleteOtelContext (h : HeaderMap) : HeaderMap := h.removeAll otelHeaders

def propagateOrStripOtelContext (h : HeaderMap) : HeaderMap :=
  if validateTraceparent h then h else stripIncompleteOtelContext h

/-! ## The messages passed on -/

/-- What `handle_request` does to the request's headers before it sends them to the backend. -/
def rewriteRequest (h : HeaderMap) (clientAddr backendAddr : SocketAddr) : Except ExpectError HeaderMap := do
  let h ← insertXForwardedHeaders h clientAddr backendAddr
  return propagateOrStripOtelContext (stripHopByHopHeaders h)

/-- What `handle_request` does to the headers of the backend's response. -/
def rewriteResponse (h : HeaderMap) : HeaderMap := stripHopByHopHeaders h

/-! ## What a name has afterwards -/

/-- The header map once the three or four forwarding headers are set. -/
def forwarded (h : HeaderMap) (ip scheme backendHost : HeaderValue) : HeaderMap :=
  let h' := ((h.insert xForwardedFor ip).insert xForwardedProto scheme).insert host backendHost
  (h.get host).elim h' (h'.insert xForwardedHost)

theorem parseValue_graphic {s : Text} (h : ∀ c ∈ s, Graphic c) (e : ExpectError) :
    ∃ v, parseValue s e = .ok v ∧ v.text = s := by
  obtain ⟨v, hv⟩ := fromStr_graphic h
  exact ⟨v, by unfold parseValue; rw [hv], text_fromStr h hv⟩

/-- The addresses' texts are header values, so no `expect` panics; the values set are these texts. -/
theorem insertXForwardedHeaders_values (clientAddr backendAddr : SocketAddr) :
    ∃ ip scheme backendHost, (∀ h, insertXForwardedHeaders h clientAddr backendAddr =
        .ok (forwarded h ip scheme backendHost)) ∧
      ip.text = clientAddr.ip.toText ∧ scheme.text = "http".toList ∧ backendHost.text = backendAddr.toText := by
  have hhttp : ∀ c ∈ "http".toList, Graphic c := graphic_of_all (by decide)
  obtain ⟨ip, hip, hipText⟩ := parseValue_graphic (graphic_ip clientAddr.ip) .invalidIp
  obtain ⟨scheme, hscheme, hschemeText⟩ := parseValue_graphic hhttp .invalidScheme
  obtain ⟨backendHost, hhost, hhostText⟩ := parseValue_graphic (graphic_addr backendAddr) .invalidHost
  refine ⟨ip, scheme, backendHost, fun h => ?_, hipText, hschemeText, hhostText⟩
  have hget : ((h.insert xForwardedFor ip).insert xForwardedProto scheme).get host = h.get host := by
    refine Multimap.get_congr ?_
    rw [Multimap.getAll_insert_ne _ (by decide), Multimap.getAll_insert_ne _ (by decide)]
  unfold insertXForwardedHeaders forwarded
  rw [hip, hscheme, hhost]
  simp only [bind, Except.bind, hget]
  cases h.get host <;> rfl

theorem insertXForwardedHeaders_eq (clientAddr backendAddr : SocketAddr) :
    ∃ ip scheme backendHost, ∀ h, insertXForwardedHeaders h clientAddr backendAddr =
      .ok (forwarded h ip scheme backendHost) := by
  obtain ⟨ip, scheme, backendHost, heq, -⟩ := insertXForwardedHeaders_values clientAddr backendAddr
  exact ⟨ip, scheme, backendHost, heq⟩

/-- The three or four names the proxy sets have the values it sets; `X-Forwarded-Host` has the
client's own values when there is no `Host`, and every other name has the client's values. -/
theorem getAll_forwarded (h : HeaderMap) (ip scheme backendHost : HeaderValue) (k : HeaderName) :
    (forwarded h ip scheme backendHost).getAll k =
      if k = xForwardedHost then (h.get host).elim (h.getAll k) ([·])
      else if k = host then [backendHost]
      else if k = xForwardedProto then [scheme]
      else if k = xForwardedFor then [ip]
      else h.getAll k := by
  have hne : xForwardedHost ≠ host ∧ xForwardedHost ≠ xForwardedProto ∧ xForwardedHost ≠ xForwardedFor := by decide
  unfold forwarded
  rcases h.get host with _ | v
  · simp only [Option.elim_none, Multimap.getAll_insert]
    by_cases hk : k = xForwardedHost
    · subst hk
      simp only [if_neg hne.1, if_neg hne.2.1, if_neg hne.2.2, if_true]
    · rw [if_neg hk]
  · simp only [Option.elim_some, Multimap.getAll_insert]

@[simp] theorem getAll_stripHopByHopHeaders (h : HeaderMap) (k : HeaderName) :
    (stripHopByHopHeaders h).getAll k = if k ∈ hopByHopHeaders then [] else h.getAll k :=
  Multimap.getAll_removeAll ..

@[simp] theorem getAll_stripIncompleteOtelContext (h : HeaderMap) (k : HeaderName) :
    (stripIncompleteOtelContext h).getAll k = if k ∈ otelHeaders then [] else h.getAll k :=
  Multimap.getAll_removeAll ..

theorem getAll_propagateOrStripOtelContext (h : HeaderMap) (k : HeaderName) :
    (propagateOrStripOtelContext h).getAll k =
      if k ∈ otelHeaders ∧ validateTraceparent h = false then [] else h.getAll k := by
  unfold propagateOrStripOtelContext
  by_cases hv : validateTraceparent h = true
  · simp [hv]
  · simp [hv]

end Gungho.Proxy
