/-
Hop-by-hop headers: RFC 2616 section 13.5.1 names eight, and a message's `Connection` header may
nominate more. The proxy removes the eight, so a nominated header that it does not drop for another
reason is passed on.
-/
import Gungho.Proxy.Rewrite

namespace Gungho.Proxy

open Gungho.Lib Gungho.Net

/-! ## Nominated headers -/

def isOws (c : Char) : Bool := c == ' ' || c == '\t'

/-- Without the spaces and tabs around. -/
def trimOws (s : Text) : Text := ((s.dropWhile isOws).reverse.dropWhile isOws).reverse

/-- The comma-separated tokens of all `Connection` values, in lower case. -/
def connectionTokens (h : HeaderMap) : List Text :=
  (h.getAll connection).flatMap fun v => (v.text.splitOn ',').map fun token => toLowercase (trimOws token)

def Nominated (h : HeaderMap) (n : HeaderName) : Prop := n.text ∈ connectionTokens h

instance (h : HeaderMap) : DecidablePred (Nominated h) := fun n =>
  inferInstanceAs (Decidable (n.text ∈ connectionTokens h))

/-- `passed` carries no hop-by-hop header of `incoming`. -/
def Clean (incoming passed : HeaderMap) : Prop :=
  ∀ n, n ∈ hopByHopHeaders ∨ Nominated incoming n → passed.contains n = false

/-! ## What is passed on -/

/-- A header that the backend receives: the proxy sets it, or the request has it and it is neither one
of the eight nor part of a trace context that is stripped. -/
def PassedOn (h : HeaderMap) (n : HeaderName) : Prop :=
  n ∉ hopByHopHeaders ∧
    (n = xForwardedFor ∨ n = xForwardedProto ∨ n = host ∨ (n = xForwardedHost ∧ h.contains host = true) ∨
      (h.contains n = true ∧ (n ∈ otelHeaders → validateTraceparent h = true)))

theorem validateTraceparent_congr {h h' : HeaderMap} (e : h.getAll traceparent = h'.getAll traceparent) :
    validateTraceparent h = validateTraceparent h' := by
  unfold validateTraceparent
  rw [Multimap.get_congr e]

theorem contains_forwarded (h : HeaderMap) (ip scheme backendHost : HeaderValue) (n : HeaderName) :
    (forwarded h ip scheme backendHost).contains n = true ↔
      n = xForwardedFor ∨ n = xForwardedProto ∨ n = host ∨ (n = xForwardedHost ∧ h.contains host = true) ∨
        h.contains n = true := by
  rw [Multimap.contains_iff, getAll_forwarded, Multimap.contains_iff h n]
  by_cases h₁ : n = xForwardedHost
  · subst h₁
    have hne : xForwardedHost ≠ xForwardedFor ∧ xForwardedHost ≠ xForwardedProto ∧ xForwardedHost ≠ host := by
      decide
    simp only [if_true, hne.1, hne.2.1, hne.2.2, true_and, false_or]
    rcases hg : h.get host with _ | v
    · simp [(Multimap.get_eq_none_iff h host).1 hg]
    · simp [Multimap.contains_of_get hg]
  rw [if_neg h₁]
  by_cases h₂ : n = host
  · rw [if_pos h₂]
    exact iff_of_true (List.cons_ne_nil _ _) (.inr (.inr (.inl h₂)))
  rw [if_neg h₂]
  by_cases h₃ : n = xForwardedProto
  · rw [if_pos h₃]
    exact iff_of_true (List.cons_ne_nil _ _) (.inr (.inl h₃))
  rw [if_neg h₃]
  by_cases h₄ : n = xForwardedFor
  · rw [if_pos h₄]
    exact iff_of_true (List.cons_ne_nil _ _) (.inl h₄)
  rw [if_neg h₄]
  simp only [h₁, h₂, h₃, h₄, false_and, false_or]

/-- The rewritten request has a header exactly when it is passed on. -/
theorem contains_rewriteRequest (h : HeaderMap) (clientAddr backendAddr : SocketAddr) :
    ∃ r, rewriteRequest h clientAddr backendAddr = .ok r ∧ ∀ n, r.contains n = true ↔ PassedOn h n := by
  obtain ⟨ip, scheme, backendHost, heq⟩ := insertXForwardedHeaders_eq clientAddr backendAddr
  set h₁ := stripHopByHopHeaders (forwarded h ip scheme backendHost)
  have htrace : validateTraceparent h₁ = validateTraceparent h := by
    refine validateTraceparent_congr ?_
    rw [getAll_stripHopByHopHeaders, getAll_forwarded]
    rfl
  refine ⟨propagateOrStripOtelContext h₁, ?_, fun n => ?_⟩
  · unfold rewriteRequest
    rw [heq]
    rfl
  · have hset : n ∈ otelHeaders → n ≠ xForwardedFor ∧ n ≠ xForwardedProto ∧ n ≠ host ∧ n ≠ xForwardedHost := by
      intro hn
      simp only [otelHeaders, List.mem_cons, List.not_mem_nil, or_false] at hn
      rcases hn with rfl | rfl | rfl <;> decide
    have hstages : (propagateOrStripOtelContext h₁).contains n = true ↔
        ¬(n ∈ otelHeaders ∧ validateTraceparent h = false) ∧ n ∉ hopByHopHeaders ∧
          (forwarded h ip scheme backendHost).contains n = true := by
      rw [Multimap.contains_iff, getAll_propagateOrStripOtelContext, htrace, getAll_stripHopByHopHeaders,
        Multimap.contains_iff]
      simp only [ne_eq, ite_eq_left_iff, not_forall, exists_prop]
    rw [hstages, contains_forwarded, PassedOn]
    -- the proxy sets none of the trace headers itself
    by_cases hotel : n ∈ otelHeaders
    · obtain ⟨h₁, h₂, h₃, h₄⟩ := hset hotel
      simp only [hotel, h₁, h₂, h₃, h₄, true_and, false_and, false_or, true_imp_iff, Bool.not_eq_false]
      exact and_rotate
    · simp only [hotel, false_and, not_false_iff, true_and, false_imp_iff, and_true]

/-! ## The result -/

/-- Both messages passed on are free of hop-by-hop headers exactly when no header that the request's
`Connection` nominates is passed on, and every header that the response's `Connection` nominates is
one of the eight or absent. -/
theorem clean_iff (request response : HeaderMap) (clientAddr backendAddr : SocketAddr) :
    ((∃ r, rewriteRequest request clientAddr backendAddr = .ok r ∧ Clean request r) ∧
        Clean response (rewriteResponse response)) ↔
      (∀ n, Nominated request n → ¬ PassedOn request n) ∧
        ∀ n, Nominated response n → n ∈ hopByHopHeaders ∨ response.contains n = false := by
  obtain ⟨r, hr, hpassed⟩ := contains_rewriteRequest request clientAddr backendAddr
  have hresponse : ∀ n, (rewriteResponse response).contains n = false ↔
      n ∈ hopByHopHeaders ∨ response.contains n = false := by
    intro n
    rw [Multimap.contains_eq_false_iff, Multimap.contains_eq_false_iff, rewriteResponse, getAll_stripHopByHopHeaders]
    simp only [ite_eq_left_iff, or_iff_not_imp_left]
  refine and_congr ⟨?_, fun h => ⟨r, hr, fun n hn => ?_⟩⟩ ⟨fun h n hn => ?_, fun h n hn => ?_⟩
  · rintro ⟨r', hr', hclean⟩ n hn hp
    rw [hr] at hr'
    cases hr'
    exact absurd ((hpassed n).2 hp) (by rw [hclean n (.inr hn)]; decide)
  · rw [← Bool.not_eq_true, hpassed]
    rcases hn with hn | hn
    · exact fun hp => hp.1 hn
    · exact h n hn
  · exact (hresponse n).1 (h n (.inr hn))
  · exact (hresponse n).2 (hn.elim .inl (h n))

/-- A header that the client nominates reaches the backend. -/
theorem nominated_passed_on :
    let xSecret : HeaderName := .ofStr "X-Secret".toList (by decide)
    let request : HeaderMap := ⟨[(host, .fromStatic "example.com".toList (by decide)),
      (connection, .fromStatic "close, X-Secret".toList (by decide)), (xSecret, .fromStatic ['1'] (by decide))]⟩
    ¬ ∃ r, rewriteRequest request (.v4 ⟨10, 0, 0, 9⟩ 5000) (.v4 ⟨10, 0, 0, 1⟩ 80) = .ok r ∧ Clean request r := by
  intro xSecret request
  obtain ⟨r, hr, hpassed⟩ := contains_rewriteRequest request (.v4 ⟨10, 0, 0, 9⟩ 5000) (.v4 ⟨10, 0, 0, 1⟩ 80)
  rintro ⟨r', hr', hclean⟩
  rw [hr] at hr'
  cases hr'
  have hnominated : Nominated request xSecret := by decide
  have hp : PassedOn request xSecret := by unfold PassedOn; decide
  exact absurd ((hpassed xSecret).2 hp) (by rw [hclean xSecret (.inr hnominated)]; decide)

end Gungho.Proxy
