/-
The Prometheus metrics of `metrics.rs`, by label values: `gungho_requests_total`, the samples of
`gungho_request_duration_seconds` and the `gungho_backend_health` gauge.
-/
import Gungho.Lib.Series
import Gungho.Net.Addr

namespace Gungho

open Gungho.Lib Gungho.Net

/-! ## Status codes -/

/-- Three digits, as `http` has them. -/
structure StatusCode where
  code : Nat
  valid : 100 ≤ code ∧ code < 1000
  deriving DecidableEq, Repr

namespace StatusCode

def ok : StatusCode := ⟨200, by decide⟩
def badRequest : StatusCode := ⟨400, by decide⟩
def badGateway : StatusCode := ⟨502, by decide⟩
def serviceUnavailable : StatusCode := ⟨503, by decide⟩
def gatewayTimeout : StatusCode := ⟨504, by decide⟩

def asStr (s : StatusCode) : Text := decimal s.code

end StatusCode

/-! ## The metrics -/

/-- Durations are in nanoseconds. A histogram keeps its samples; `backendHealth` is `none` for a
label that was never set. -/
structure GunghoMetrics where
  requestsTotal : Series (Text × Text) Nat
  requestDurationSeconds : Series Text (List Nat)
  backendHealth : Text → Option Int

namespace GunghoMetrics

def new : GunghoMetrics := ⟨.empty, .empty, fun _ => none⟩

/-- `requests_total.with_label_values(..).inc()`. -/
def incRequests (m : GunghoMetrics) (statusCode : StatusCode) (backend : Text) : GunghoMetrics :=
  { m with requestsTotal := m.requestsTotal.update (backend, statusCode.asStr) (· + 1) }

/-- `request_duration_seconds.with_label_values(..).observe(..)`. -/
def observeDuration (m : GunghoMetrics) (backend : Text) (duration : Nat) : GunghoMetrics :=
  { m with requestDurationSeconds := m.requestDurationSeconds.update backend (duration :: ·) }

/-- The two updates come one after the other. -/
def recordRequest (m : GunghoMetrics) (statusCode : StatusCode) (backend : Text) (duration : Nat) : GunghoMetrics :=
  (m.incRequests statusCode backend).observeDuration backend duration

def setBackendHealth (m : GunghoMetrics) (backend : Text) (healthy : Bool) : GunghoMetrics :=
  { m with backendHealth := fun label => if label = backend then some healthy.toInt else m.backendHealth label }

end GunghoMetrics

end Gungho
