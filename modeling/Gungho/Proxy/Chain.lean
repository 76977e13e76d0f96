/-
Proxies one behind the other. A proxy replaces the forwarding headers instead of extending them, so
what the last one sends is what it would send for the client's own request with the address of the
proxy before it as `Host`: of all the hops before these two nothing is left, the client's address included.
-/
import Gungho.Proxy.Stages

namespace Gungho.Proxy

open Gungho.Lib Gungho.Net

/-! ## A pass through one proxy -/

section

variable (ip scheme backendHost : HeaderValue)

/-- `rewriteRequest` once the values it sets are parsed. -/
def pass (h : HeaderMap) : HeaderMap :=
  propagateOrStripOtelContext (stripHopByHopHeaders (forwarded h ip scheme backendHost))

theorem rewriteRequest_pass (clientAddr backendAddr : SocketAddr) :
    ∃ ip scheme backendHost, backendHost.text = backendAddr.toText ∧
      ∀ h, rewriteRequest h clientAddr backendAddr = .ok (pass ip scheme backendHost h) := by
  obtain ⟨ip, scheme, backendHost, heq, -, -, hhost⟩ := insertXForwardedHeaders_values clientAddr backendAddr
  refine ⟨ip, scheme, backendHost, hhost, fun h => ?_⟩
  unfold rewriteRequest
  rw [heq]
  rfl

/-- The forwarding names are no names of the other stages. -/
theorem not_forwarding {k : HeaderName} (hk : k ∈ hopByHopHeaders ∨ k ∈ otelHeaders) :
    k ≠ xForwardedHost ∧ k ≠ host ∧ k ≠ xForwardedProto ∧ k ≠ xForwardedFor := by
  have hdec : ∀ k ∈ hopByHopHeaders ++ otelHeaders,
      k ≠ xForwardedHost ∧ k ≠ host ∧ k ≠ xForwardedProto ∧ k ≠ xForwardedFor := by decide
  exact hdec k (List.mem_append.2 hk)

theorem validateTraceparent_stripped (h : HeaderMap) :
    validateTraceparent (stripHopByHopHeaders (forwarded h ip scheme backendHost)) = validateTraceparent h := by
  obtain ⟨h₁, h₂, h₃, h₄⟩ := not_forwarding (k := traceparent) (.inr (by simp [otelHeaders]))
  have hne : traceparent ∉ hopByHopHeaders := by decide
  refine validateTraceparent_congr ?_
  rw [getAll_stripHopByHopHeaders, if_neg hne, getAll_forwarded, if_neg h₁, if_neg h₂, if_neg h₃, if_neg h₄]

/-- What a name has after the pass. -/
theorem getAll_pass (h : HeaderMap) (k : HeaderName) :
    (pass ip scheme backendHost h).getAll k =
      if k ∈ hopByHopHeaders then []
      else if k ∈ otelHeaders ∧ validateTraceparent h = false then []
      else (forwarded h ip scheme backendHost).getAll k := by
  unfold pass
  rw [getAll_propagateOrStripOtelContext, validateTraceparent_stripped, getAll_stripHopByHopHeaders]
  by_cases hhop : k ∈ hopByHopHeaders
  · simp only [if_pos hhop, ite_self]
  · rw [if_neg hhop, if_neg hhop]

/-- A second pass finds the trace context as the first one found it. -/
theorem validateTraceparent_pass (h : HeaderMap) :
    validateTraceparent (pass ip scheme backendHost h) = validateTraceparent h := by
  obtain ⟨h₁, h₂, h₃, h₄⟩ := not_forwarding (k := traceparent) (.inr (by simp [otelHeaders]))
  have hne : traceparent ∉ hopByHopHeaders := by decide
  have hget := getAll_pass ip scheme backendHost h traceparent
  rw [if_neg hne, getAll_forwarded, if_neg h₁, if_neg h₂, if_neg h₃, if_neg h₄] at hget
  rcases hv : validateTraceparent h with _ | _
  · rw [if_pos ⟨by simp [otelHeaders], hv⟩] at hget
    unfold validateTraceparent
    rw [Multimap.get, hget]
    rfl
  · rw [if_neg (by simp [hv])] at hget
    exact (validateTraceparent_congr hget).trans hv

theorem same_pass {h h' : HeaderMap} (hsame : h.Same h') :
    (pass ip scheme backendHost h).Same (pass ip scheme backendHost h') := by
  intro k
  have hforwarded := (local_forwarded ip scheme backendHost).same hsame k
  rw [getAll_pass, getAll_pass, validateTraceparent_congr (hsame traceparent), hforwarded]

end

/-! ## Two passes -/

/-- Only its `Host` survives a pass that another one follows. -/
theorem pass_absorbs (ip scheme backendHost ip' scheme' backendHost' v : HeaderValue) (h : HeaderMap) :
    (pass ip scheme backendHost ((pass ip' scheme' backendHost' h).insert host v)).Same
      (pass ip scheme backendHost (h.insert host v)) := by
  have htrace : traceparent ≠ host := by decide
  have hvalid : ∀ m : HeaderMap, validateTraceparent (m.insert host v) = validateTraceparent m := fun m =>
    validateTraceparent_congr (Multimap.getAll_insert_ne m htrace v)
  have hhost : ∀ m : HeaderMap, (m.insert host v).get host = some v := fun m => by
    rw [Multimap.get, Multimap.getAll_insert_self]
    rfl
  intro k
  rw [getAll_pass, getAll_pass, hvalid, hvalid, validateTraceparent_pass, getAll_forwarded, getAll_forwarded,
    hhost, hhost]
  by_cases hhop : k ∈ hopByHopHeaders
  · rw [if_pos hhop, if_pos hhop]
  rw [if_neg hhop, if_neg hhop]
  by_cases hotel : k ∈ otelHeaders ∧ validateTraceparent h = false
  · rw [if_pos hotel, if_pos hotel]
  rw [if_neg hotel, if_neg hotel]
  by_cases h₁ : k = xForwardedHost
  · rw [if_pos h₁, if_pos h₁, Option.elim_some, Option.elim_some]
  by_cases h₂ : k = host
  · rw [if_neg h₁, if_neg h₁, if_pos h₂, if_pos h₂]
  by_cases h₃ : k = xForwardedProto
  · rw [if_neg h₁, if_neg h₁, if_neg h₂, if_neg h₂, if_pos h₃, if_pos h₃]
  by_cases h₄ : k = xForwardedFor
  · rw [if_neg h₁, if_neg h₁, if_neg h₂, if_neg h₂, if_neg h₃, if_neg h₃, if_pos h₄, if_pos h₄]
  -- a name that no stage sets: the first pass has kept it or stripped it as the second one does
  simp only [if_neg h₁, if_neg h₂, if_neg h₃, if_neg h₄]
  rw [Multimap.getAll_insert_ne _ h₂, Multimap.getAll_insert_ne _ h₂, getAll_pass, if_neg hhop, if_neg hotel,
    getAll_forwarded, if_neg h₁, if_neg h₂, if_neg h₃, if_neg h₄]

/-- After a pass `Host` is the backend's address. -/
theorem same_insert_host (ip scheme backendHost : HeaderValue) (h : HeaderMap) :
    (pass ip scheme backendHost h).Same ((pass ip scheme backendHost h).insert host backendHost) := by
  intro k
  rw [Multimap.getAll_insert]
  by_cases hk : k = host
  · subst hk
    have hhop : host ∉ hopByHopHeaders := by decide
    have hotel : host ∉ otelHeaders := by decide
    have hne : host ≠ xForwardedHost := by decide
    rw [if_pos rfl, getAll_pass, if_neg hhop, if_neg fun hc => hotel hc.1, getAll_forwarded, if_neg hne, if_pos rfl]
  · rw [if_neg hk]

/-! ## The result -/

/-- The headers of a request behind a chain of proxies. A hop is a proxy's peer and the backend it forwards to. -/
def chain (h : HeaderMap) : List (SocketAddr × SocketAddr) → Except ExpectError HeaderMap
  | [] => .ok h
  | (clientAddr, backendAddr) :: hops => do chain (← rewriteRequest h clientAddr backendAddr) hops

/-- Whatever the hops of a chain are, a last pass after a `Host` of its own undoes them all. -/
theorem pass_chain (ip scheme backendHost v : HeaderValue) (hops : List (SocketAddr × SocketAddr)) (h : HeaderMap) :
    ∃ r, chain h hops = .ok r ∧
      (pass ip scheme backendHost (r.insert host v)).Same (pass ip scheme backendHost (h.insert host v)) := by
  induction hops generalizing h with
  | nil => exact ⟨h, rfl, fun _ => rfl⟩
  | cons hop hops ih =>
    obtain ⟨ip', scheme', backendHost', -, heq⟩ := rewriteRequest_pass hop.1 hop.2
    obtain ⟨r, hr, hsame⟩ := ih (pass ip' scheme' backendHost' h)
    refine ⟨r, ?_, fun k => (hsame k).trans (pass_absorbs ip scheme backendHost ip' scheme' backendHost' v h k)⟩
    rw [chain, heq]
    exact hr

theorem chain_append (h : HeaderMap) (hops hops' : List (SocketAddr × SocketAddr)) :
    chain h (hops ++ hops') = (chain h hops).bind fun r => chain r hops' := by
  induction hops generalizing h with
  | nil => rfl
  | cons hop hops ih =>
    rw [List.cons_append, chain, chain]
    rcases rewriteRequest h hop.1 hop.2 with e | r
    · rfl
    · exact ih r

/-- A chain of two or more proxies never panics, and its last one sends what it would send alone for the client's
request with the address of the last but one's backend as `Host`. -/
theorem chain_forgets (h : HeaderMap) (hops : List (SocketAddr × SocketAddr))
    (clientAddr backendAddr clientAddr' backendAddr' : SocketAddr) :
    ∃ v r r', v.text = backendAddr.toText ∧
      chain h (hops ++ [(clientAddr, backendAddr), (clientAddr', backendAddr')]) = .ok r ∧
      rewriteRequest (h.insert host v) clientAddr' backendAddr' = .ok r' ∧ r.Same r' := by
  obtain ⟨ip, scheme, v, hv, heq⟩ := rewriteRequest_pass clientAddr backendAddr
  obtain ⟨ip', scheme', backendHost', -, heq'⟩ := rewriteRequest_pass clientAddr' backendAddr'
  obtain ⟨m, hm, hsame⟩ := pass_chain ip' scheme' backendHost' v hops h
  refine ⟨v, pass ip' scheme' backendHost' (pass ip scheme v m), _, hv, ?_, heq' _, fun k => ?_⟩
  · rw [chain_append, hm]
    show chain m [(clientAddr, backendAddr), (clientAddr', backendAddr')] = _
    rw [chain, heq]
    show chain (pass ip scheme v m) [(clientAddr', backendAddr')] = _
    rw [chain, heq']
    rfl
  · calc (pass ip' scheme' backendHost' (pass ip scheme v m)).getAll k
        = (pass ip' scheme' backendHost' ((pass ip scheme v m).insert host v)).getAll k :=
          same_pass ip' scheme' backendHost' (same_insert_host ip scheme v m) k
      _ = (pass ip' scheme' backendHost' (m.insert host v)).getAll k :=
          pass_absorbs ip' scheme' backendHost' ip scheme v v m k
      _ = (pass ip' scheme' backendHost' (h.insert host v)).getAll k := hsame k

end Gungho.Proxy
