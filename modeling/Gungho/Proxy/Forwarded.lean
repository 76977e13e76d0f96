/-
Spoofed forwarding headers: what a client puts in `X-Forwarded-For`, `X-Forwarded-Proto` and
`X-Forwarded-Host` never reaches the backend if the request has a `Host`. Without one the client's
`X-Forwarded-Host` is not replaced.
-/
import Gungho.Proxy.Rewrite

namespace Gungho.Proxy

open Gungho.Lib Gungho.Net

/-- The same values of every name but the three forwarding headers. -/
def AgreeElsewhere (h h' : HeaderMap) : Prop :=
  ∀ k, k ≠ xForwardedFor → k ≠ xForwardedProto → k ≠ xForwardedHost → h.getAll k = h'.getAll k

/-- `insert_x_forwarded_headers` makes the same header map from both. -/
def SameForwarded (clientAddr backendAddr : SocketAddr) (h h' : HeaderMap) : Prop :=
  ∃ r r', insertXForwardedHeaders h clientAddr backendAddr = .ok r ∧
    insertXForwardedHeaders h' clientAddr backendAddr = .ok r' ∧ r.Same r'

theorem agreeElsewhere_insert (h : HeaderMap) (v : HeaderValue) : AgreeElsewhere h (h.insert xForwardedHost v) :=
  fun _ _ _ hk => (Multimap.getAll_insert_ne h hk v).symm

theorem agreeElsewhere_remove (h : HeaderMap) : AgreeElsewhere h (h.remove xForwardedHost) := by
  intro k _ _ hk
  rw [Multimap.getAll_remove, if_neg hk]

/-- Some header map differs in `X-Forwarded-Host` alone. -/
theorem exists_agreeElsewhere (h : HeaderMap) :
    ∃ h', AgreeElsewhere h h' ∧ h.getAll xForwardedHost ≠ h'.getAll xForwardedHost := by
  by_cases hx : h.getAll xForwardedHost = []
  · refine ⟨h.insert xForwardedHost (.fromStatic [] rfl), agreeElsewhere_insert h _, ?_⟩
    rw [hx, Multimap.getAll_insert_self]
    exact (List.cons_ne_nil _ _).symm
  · refine ⟨h.remove xForwardedHost, agreeElsewhere_remove h, ?_⟩
    rwa [Multimap.getAll_remove, if_pos rfl]

/-- Two requests that agree elsewhere lead to the same result exactly when they have a `Host`, which
replaces `X-Forwarded-Host` in both, or the same `X-Forwarded-Host`. -/
theorem sameForwarded_iff (clientAddr backendAddr : SocketAddr) {h h' : HeaderMap} (ha : AgreeElsewhere h h') :
    SameForwarded clientAddr backendAddr h h' ↔
      h.contains host = true ∨ h.getAll xForwardedHost = h'.getAll xForwardedHost := by
  obtain ⟨ip, scheme, backendHost, heq⟩ := insertXForwardedHeaders_eq clientAddr backendAddr
  have hhost : h.get host = h'.get host := Multimap.get_congr (ha host (by decide) (by decide) (by decide))
  have hsame : SameForwarded clientAddr backendAddr h h' ↔
      (forwarded h ip scheme backendHost).Same (forwarded h' ip scheme backendHost) := by
    unfold SameForwarded
    simp only [heq, Except.ok.injEq]
    exact ⟨fun ⟨_, _, hr, hr', hs⟩ => hr ▸ hr' ▸ hs, fun hs => ⟨_, _, rfl, rfl, hs⟩⟩
  have hpoint : (forwarded h ip scheme backendHost).Same (forwarded h' ip scheme backendHost) ↔
      (h.get host).elim (h.getAll xForwardedHost) ([·]) = (h.get host).elim (h'.getAll xForwardedHost) ([·]) := by
    constructor
    · intro hs
      have hx := hs xForwardedHost
      rwa [getAll_forwarded, getAll_forwarded, if_pos rfl, if_pos rfl, ← hhost] at hx
    · intro hx k
      rw [getAll_forwarded, getAll_forwarded, ← hhost]
      by_cases h₁ : k = xForwardedHost
      · rw [if_pos h₁, if_pos h₁, h₁, hx]
      by_cases h₂ : k = xForwardedProto
      · subst h₂; rfl
      by_cases h₃ : k = xForwardedFor
      · subst h₃; rfl
      rw [ha k h₃ h₂ h₁]
  rw [hsame, hpoint]
  rcases hg : h.get host with _ | v
  · simp [(Multimap.get_eq_none_iff h host).1 hg]
  · simp [Multimap.contains_of_get hg]

/-- No header map that agrees elsewhere leads to another result exactly when the request has a
`Host`. -/
theorem sameForwarded_iff_host (clientAddr backendAddr : SocketAddr) (h : HeaderMap) :
    (∀ h', AgreeElsewhere h h' → SameForwarded clientAddr backendAddr h h') ↔ h.contains host = true := by
  constructor
  · intro hall
    obtain ⟨h', ha, hne⟩ := exists_agreeElsewhere h
    exact ((sameForwarded_iff clientAddr backendAddr ha).1 (hall h' ha)).resolve_right hne
  · exact fun hc h' ha => (sameForwarded_iff clientAddr backendAddr ha).2 (.inl hc)

/-- A request without `Host` and with a client's own `X-Forwarded-Host`, and one with neither. -/
theorem spoofed_forwarded_host :
    let h : HeaderMap := ⟨[(xForwardedHost, .fromStatic "evil.example".toList (by decide))]⟩
    AgreeElsewhere h ⟨[]⟩ ∧ ¬ SameForwarded (.v4 ⟨10, 0, 0, 9⟩ 5000) (.v4 ⟨10, 0, 0, 1⟩ 80) h ⟨[]⟩ := by
  intro h
  have ha : AgreeElsewhere h ⟨[]⟩ := by
    intro k _ _ hk
    simp [h, Multimap.getAll, Ne.symm hk]
  refine ⟨ha, fun hs => ?_⟩
  exact absurd ((sameForwarded_iff _ _ ha).1 hs) (by decide)

end Gungho.Proxy
