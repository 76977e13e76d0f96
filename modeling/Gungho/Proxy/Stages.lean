/-
The three rewriting stages of `handle_request` as operations on one header multimap. Each reads and
changes names of its own: the four forwarding names, the eight hop-by-hop names, the three trace
names. So every other header is passed on as it is, and the stages may run in any order.
-/
import Gungho.Proxy.HopByHop

namespace Gungho.Proxy

open Gungho.Lib Gungho.Net

/-! ## The stages -/

inductive Stage where
  | insertXForwarded
  | stripHopByHop
  | propagateOrStripOtel
  deriving DecidableEq, Repr

namespace Stage

/-- In the order of `handle_request`. -/
def all : List Stage := [.insertXForwarded, .stripHopByHop, .propagateOrStripOtel]

def apply (clientAddr backendAddr : SocketAddr) (h : HeaderMap) : Stage → Except ExpectError HeaderMap
  | .insertXForwarded => insertXForwardedHeaders h clientAddr backendAddr
  | .stripHopByHop => .ok (stripHopByHopHeaders h)
  | .propagateOrStripOtel => .ok (propagateOrStripOtelContext h)

/-- The stages one after the other. -/
def applyAll (clientAddr backendAddr : SocketAddr) (h : HeaderMap) : List Stage → Except ExpectError HeaderMap
  | [] => .ok h
  | stage :: stages => do applyAll clientAddr backendAddr (← stage.apply clientAddr backendAddr h) stages

/-- The names the stage reads and changes. -/
def names : Stage → List HeaderName
  | .insertXForwarded => [host, xForwardedFor, xForwardedProto, xForwardedHost]
  | .stripHopByHop => hopByHopHeaders
  | .propagateOrStripOtel => otelHeaders

theorem rewriteRequest_eq (h : HeaderMap) (clientAddr backendAddr : SocketAddr) :
    rewriteRequest h clientAddr backendAddr = applyAll clientAddr backendAddr h all := by
  unfold rewriteRequest
  simp only [all, applyAll, apply]
  cases insertXForwardedHeaders h clientAddr backendAddr <;> rfl

end Stage

/-! ## The stages without their panics -/

section

variable (ip scheme backendHost : HeaderValue)

/-- The stage once the values it sets are parsed. -/
def Stage.pure (h : HeaderMap) : Stage → HeaderMap
  | .insertXForwarded => forwarded h ip scheme backendHost
  | .stripHopByHop => stripHopByHopHeaders h
  | .propagateOrStripOtel => propagateOrStripOtelContext h

theorem local_forwarded :
    Multimap.Local [host, xForwardedFor, xForwardedProto, xForwardedHost] (forwarded · ip scheme backendHost) := by
  refine ⟨fun h k hk => ?_, fun h h' hsame k hk => ?_⟩
  · simp only [List.mem_cons, List.not_mem_nil, or_false, not_or] at hk
    rw [getAll_forwarded, if_neg hk.2.2.2, if_neg hk.1, if_neg hk.2.2.1, if_neg hk.2.1]
  · have hhost : h.get host = h'.get host := Multimap.get_congr (hsame host (by simp))
    rw [getAll_forwarded, getAll_forwarded, hhost, hsame k hk]

theorem local_stripHopByHop : Multimap.Local hopByHopHeaders stripHopByHopHeaders := by
  refine ⟨fun h k hk => ?_, fun h h' _ k hk => ?_⟩
  · rw [getAll_stripHopByHopHeaders, if_neg hk]
  · rw [getAll_stripHopByHopHeaders, getAll_stripHopByHopHeaders, if_pos hk, if_pos hk]

theorem local_propagateOrStripOtel : Multimap.Local otelHeaders propagateOrStripOtelContext := by
  refine ⟨fun h k hk => ?_, fun h h' hsame k hk => ?_⟩
  · rw [getAll_propagateOrStripOtelContext, if_neg fun hc => hk hc.1]
  · have hvalid := validateTraceparent_congr (hsame traceparent (by simp [otelHeaders]))
    rw [getAll_propagateOrStripOtelContext, getAll_propagateOrStripOtelContext, hvalid, hsame k hk]

theorem local_stage (stage : Stage) : Multimap.Local stage.names (Stage.pure ip scheme backendHost · stage) := by
  cases stage with
  | insertXForwarded => exact local_forwarded ip scheme backendHost
  | stripHopByHop => exact local_stripHopByHop
  | propagateOrStripOtel => exact local_propagateOrStripOtel

end

/-- No name belongs to two stages. -/
theorem names_disjoint {s t : Stage} (h : s ≠ t) : s.names.Disjoint t.names := by
  have hdec : ∀ s t : Stage, s ≠ t → ∀ k ∈ s.names, k ∉ t.names := by
    intro s t
    cases s <;> cases t <;> decide
  exact fun k hs ht => hdec s t h k hs ht

/-! ## The forwarded headers -/

/-- The headers that a backend receives of the request `h`. -/
structure Rewritten (h : HeaderMap) (clientAddr backendAddr : SocketAddr) (r : HeaderMap) : Prop where
  host : ∃ v, r.getAll host = [v] ∧ v.text = backendAddr.toText
  forwardedFor : ∃ v, r.getAll xForwardedFor = [v] ∧ v.text = clientAddr.ip.toText
  forwardedProto : ∃ v, r.getAll xForwardedProto = [v] ∧ v.text = "http".toList
  forwardedHost : ∀ v, h.get Proxy.host = some v → r.getAll xForwardedHost = [v]
  /-- Also when `Connection` nominates the name. -/
  kept : ∀ k, (∀ stage ∈ Stage.all, k ∉ stage.names) → r.getAll k = h.getAll k

theorem applyAll_eq {clientAddr backendAddr : SocketAddr} {ip scheme backendHost : HeaderValue}
    (heq : ∀ h, insertXForwardedHeaders h clientAddr backendAddr = .ok (forwarded h ip scheme backendHost))
    (stages : List Stage) : ∀ h, Stage.applyAll clientAddr backendAddr h stages =
      .ok (stages.foldl (fun h stage => stage.pure ip scheme backendHost h) h) := by
  induction stages with
  | nil => exact fun _ => rfl
  | cons stage stages ih =>
    intro h
    have hstage : stage.apply clientAddr backendAddr h = .ok (stage.pure ip scheme backendHost h) := by
      cases stage with
      | insertXForwarded => exact heq h
      | stripHopByHop => rfl
      | propagateOrStripOtel => rfl
    rw [Stage.applyAll, hstage]
    exact ih _

theorem rewritten_foldl {clientAddr backendAddr : SocketAddr} {ip scheme backendHost : HeaderValue}
    (hip : ip.text = clientAddr.ip.toText) (hscheme : scheme.text = "http".toList)
    (hhost : backendHost.text = backendAddr.toText) (h : HeaderMap) :
    Rewritten h clientAddr backendAddr (Stage.all.foldl (fun h stage => stage.pure ip scheme backendHost h) h) := by
  have hset : ∀ k ∈ Stage.insertXForwarded.names,
      (Stage.all.foldl (fun h stage => stage.pure ip scheme backendHost h) h).getAll k =
        (forwarded h ip scheme backendHost).getAll k := by
    -- the other stages have none of the names that the first one sets
    intro k hk
    rw [Stage.all, List.foldl_cons]
    refine Multimap.getAll_foldl_of_not_mem (local_stage ip scheme backendHost) _ _ fun stage hstage => ?_
    have hne : Stage.insertXForwarded ≠ stage := by
      rintro rfl
      simp at hstage
    exact names_disjoint hne hk
  have hne : host ≠ xForwardedHost ∧ xForwardedFor ≠ xForwardedHost ∧ xForwardedFor ≠ host ∧
      xForwardedFor ≠ xForwardedProto ∧ xForwardedProto ≠ xForwardedHost ∧ xForwardedProto ≠ host := by decide
  obtain ⟨h₁, h₂, h₃, h₄, h₅, h₆⟩ := hne
  refine ⟨⟨backendHost, ?_, hhost⟩, ⟨ip, ?_, hip⟩, ⟨scheme, ?_, hscheme⟩, fun v hv => ?_, fun k hk => ?_⟩
  · rw [hset host (by simp [Stage.names]), getAll_forwarded, if_neg h₁, if_pos rfl]
  · rw [hset xForwardedFor (by simp [Stage.names]), getAll_forwarded, if_neg h₂, if_neg h₃, if_neg h₄, if_pos rfl]
  · rw [hset xForwardedProto (by simp [Stage.names]), getAll_forwarded, if_neg h₅, if_neg h₆, if_pos rfl]
  · rw [hset xForwardedHost (by simp [Stage.names]), getAll_forwarded, if_pos rfl, hv, Option.elim_some]
  · exact Multimap.getAll_foldl_of_not_mem (local_stage ip scheme backendHost) Stage.all h hk

/-- The stages never panic. They set the forwarding headers, keep every header that is no stage's, and
give the same headers in any order. -/
theorem rewriteRequest_stages (h : HeaderMap) (clientAddr backendAddr : SocketAddr) :
    ∃ r, rewriteRequest h clientAddr backendAddr = .ok r ∧ Rewritten h clientAddr backendAddr r ∧
      ∀ order : List Stage, order.Perm Stage.all →
        ∃ r', Stage.applyAll clientAddr backendAddr h order = .ok r' ∧ r'.Same r := by
  obtain ⟨ip, scheme, backendHost, heq, hip, hscheme, hhost⟩ := insertXForwardedHeaders_values clientAddr backendAddr
  refine ⟨_, ?_, rewritten_foldl hip hscheme hhost h, fun order hperm => ⟨_, applyAll_eq heq order h, ?_⟩⟩
  · rw [Stage.rewriteRequest_eq, applyAll_eq heq]
  · exact Multimap.same_foldl_perm (local_stage ip scheme backendHost) (fun _ _ => names_disjoint) hperm fun _ => rfl

end Gungho.Proxy
