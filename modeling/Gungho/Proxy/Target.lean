/-
The target of a forwarded request. `handle_request` prints `http://`, the backend's address and the
request's path and query, and parses the text again. A path or a query ends the authority, so the
backend's address comes back as it was; the asterisk of `OPTIONS *` does not, and becomes part of the
authority. The parser of `http::Uri` is a parameter of which the documented behaviour is assumed.
-/
import Gungho.Proxy.HopByHop
import Gungho.Proxy.Handle
import Mathlib.Data.List.TakeWhile

namespace Gungho

open Gungho.Lib Gungho.Lb Gungho.Net Gungho.Pool

namespace Proxy

/-! ## URIs -/

/-- `str::parse::<Uri>` on the absolute URIs of the proxy. It may refuse a text. -/
structure UriParser where
  parse : Text → Option Uri
  ofHttp : ∀ s uri, parse ("http://".toList ++ s) = some uri → uri = .ofHttp s
  /-- An address is followed by any URI character: whether the port is a number is not checked. -/
  port : ∀ addr : SocketAddr, (parse ("http://".toList ++ addr.toText ++ ['*'])).isSome

/-- What `Uri::path_and_query` is: the asterisk of `OPTIONS *`, or it starts with a path or a query; a
fragment is never part of it. -/
def IsPathAndQuery (t : Text) : Prop :=
  t = ['*'] ∨ ((∃ rest, t = '/' :: rest ∨ t = '?' :: rest) ∧ '#' ∉ t)

/-! ## The target -/

section

variable (parser : UriParser)

/-- Some step of `handle_request` that has selected the backend for the request goes on to forward it with the URI. -/
def Forwards (req : Request) (backend : Backend) (uri : Uri) : Prop :=
  ∃ w s healthy call index elapsed headers,
    Call.result call = some (.ok (some index)) ∧ healthy[index]? = some backend ∧
    (handleRequest w parser.parse s (.selecting req healthy call) (.go elapsed)).2 = .guarding backend uri headers

/-- The URI leads to the backend's address with the client's path and query. -/
def KeepsTarget (req : Request) (backend : Backend) (uri : Uri) : Prop :=
  uri.authority = backend.addr.toText ∧ uri.pathAndQuery = req.pathAndQuery.getD ['/']

theorem backendUri_eq (addr : SocketAddr) (pathAndQuery : Option Text) :
    backendUri addr pathAndQuery = "http://".toList ++ (addr.toText ++ pathAndQuery.getD "/".toList) :=
  List.append_assoc _ _ _

/-- A request is forwarded with the URI that the text for the backend parses to. -/
theorem forwards_iff (req : Request) (backend : Backend) (uri : Uri) :
    Forwards parser req backend uri ↔ parser.parse (backendUri backend.addr req.pathAndQuery) = some uri := by
  obtain ⟨headers, hheaders, -⟩ := contains_rewriteRequest req.headers req.clientAddr backend.addr
  constructor
  · rintro ⟨w, s, healthy, call, index, elapsed, headers', hcall, hindex, hstep⟩
    simp only [handleRequest, hcall, chosen, hindex, hheaders] at hstep
    rcases hparse : parser.parse (backendUri backend.addr req.pathAndQuery) with _ | uri'
    · rw [hparse] at hstep
      cases hstep
    · rw [hparse] at hstep
      cases hstep
      rfl
  · intro hparse
    refine ⟨0, oneBackend, [backend], .done (.ok (some 0)), 0, 0, headers, rfl, rfl, ?_⟩
    simp only [handleRequest, Call.result, chosen, List.getElem?_cons_zero, hparse, hheaders]

/-! ## The authority of the parsed text -/

/-- No character of an address ends the authority. -/
theorem printed_authority : Printed (endsAuthority · = false) := by
  have hdigits : "0123456789abcdef*".toList.all (!endsAuthority ·) = true := by decide
  refine ⟨fun n => ?_, by decide, by decide, by decide, by decide⟩
  simpa using List.all_eq_true.1 hdigits _ (digitChar_mem n)

/-- The authority of the text starts with the address and goes on up to the first delimiter. -/
theorem ofHttp_addr (addr : SocketAddr) (t : Text) :
    Uri.ofHttp (addr.toText ++ t) =
      { Uri.ofHttp t with authority := addr.toText ++ (Uri.ofHttp t).authority } := by
  have haddr : ∀ c ∈ addr.toText, (!endsAuthority c) = true := fun c hc => by
    rw [printed_authority.forall_addr addr c hc]; rfl
  unfold Uri.ofHttp
  rw [List.takeWhile_append_of_pos haddr, List.dropWhile_append_of_pos haddr]

/-- A path or a query is no part of the authority. -/
theorem ofHttp_target {t : Text} (h : ∃ rest, t = '/' :: rest ∨ t = '?' :: rest) (hfragment : '#' ∉ t) :
    Uri.ofHttp t = ⟨[], t⟩ := by
  have hself : beforeFragment t = t := List.takeWhile_eq_self_iff.2 fun c hc => by
    simpa using fun he : c = '#' => hfragment (he ▸ hc)
  obtain ⟨rest, ht⟩ := h
  have hne : t ≠ [] := by rintro rfl; simp at ht
  have hstop : t.takeWhile (!endsAuthority ·) = [] ∧ t.dropWhile (!endsAuthority ·) = t := by
    rcases ht with rfl | rfl <;> exact ⟨rfl, rfl⟩
  simp only [Uri.ofHttp, hstop.1, hstop.2, hself, if_neg hne]

/-- The target is kept, unless it is the asterisk. -/
theorem keepsTarget_of_ne {req : Request} (hreq : ∀ t, req.pathAndQuery = some t → IsPathAndQuery t)
    (hne : req.pathAndQuery ≠ some ['*']) {backend : Backend} {uri : Uri} (h : Forwards parser req backend uri) :
    KeepsTarget req backend uri := by
  have huri := (forwards_iff parser req backend uri).1 h
  have htarget : Uri.ofHttp (req.pathAndQuery.getD ['/']) = ⟨[], req.pathAndQuery.getD ['/']⟩ := by
    rcases ht : req.pathAndQuery with _ | t
    · rfl
    · rcases hreq t ht with rfl | ⟨hstart, hfragment⟩
      · exact absurd ht hne
      · exact ofHttp_target hstart hfragment
  rw [backendUri_eq] at huri
  have hparsed := parser.ofHttp _ uri huri
  have hdefault : "/".toList = ['/'] := rfl
  rw [ofHttp_addr, hdefault, htarget, List.append_nil] at hparsed
  rw [hparsed]
  exact ⟨rfl, rfl⟩

/-- A request that is forwarded keeps its target exactly when the target is not the asterisk. -/
theorem keepsTarget_iff {req : Request} (hreq : ∀ t, req.pathAndQuery = some t → IsPathAndQuery t)
    (backend : Backend) :
    (∀ uri, Forwards parser req backend uri → KeepsTarget req backend uri) ↔ req.pathAndQuery ≠ some ['*'] := by
  refine ⟨fun h hasterisk => ?_, fun hne uri hf => keepsTarget_of_ne parser hreq hne hf⟩
  have htext : backendUri backend.addr req.pathAndQuery = "http://".toList ++ (backend.addr.toText ++ ['*']) := by
    rw [backendUri_eq, hasterisk, Option.getD_some]
  have hparse : (parser.parse ("http://".toList ++ (backend.addr.toText ++ ['*']))).isSome = true := by
    have hport := parser.port backend.addr
    rwa [List.append_assoc] at hport
  obtain ⟨uri, huri⟩ := Option.isSome_iff_exists.1 hparse
  obtain ⟨hkeeps, -⟩ := h uri ((forwards_iff parser req backend uri).2 (htext ▸ huri))
  -- the parsed authority is one character longer than the address
  have hauthority := congrArg (fun uri => uri.authority.length) (parser.ofHttp _ _ huri)
  have hone : (Uri.ofHttp ['*']).authority = ['*'] := rfl
  rw [ofHttp_addr] at hauthority
  simp only [hkeeps, hone, List.length_append, List.length_singleton] at hauthority
  omega

end

/-! ## A request for the asterisk -/

/-- A parser that accepts graphic ASCII with an authority. -/
def graphicUri : UriParser where
  parse t :=
    let s := t.drop 7
    if t.take 7 = "http://".toList ∧ s.all (Graphic ·) ∧ (Uri.ofHttp s).authority ≠ [] then some (.ofHttp s) else none
  ofHttp s uri h := by
    have hdrop : ("http://".toList ++ s).drop 7 = s := List.drop_left' rfl
    simp only [hdrop] at h
    split at h
    · exact (Option.some.inj h).symm
    · cases h
  port addr := by
    have hdrop : ("http://".toList ++ (addr.toText ++ ['*'])).drop 7 = addr.toText ++ ['*'] := List.drop_left' rfl
    have htake : ("http://".toList ++ (addr.toText ++ ['*'])).take 7 = "http://".toList := List.take_left' rfl
    rw [List.append_assoc]
    simp only [hdrop, htake, true_and]
    rw [if_pos]
    · rfl
    · have hgraphic := forall_append (graphic_addr addr) (graphic_of_all (s := ['*']) (by decide))
      refine ⟨List.all_eq_true.2 fun c hc => decide_eq_true (hgraphic c hc), ?_⟩
      rw [ofHttp_addr]
      exact fun h => absurd (List.append_eq_nil_iff.1 h).2 (by decide)

theorem keepsTarget_query :
    let req : Request := ⟨.v4 ⟨192, 168, 1, 1⟩ 1234, some "/api?q=1".toList, ⟨[]⟩⟩
    let backend : Backend := ⟨0, .v4 ⟨10, 0, 0, 1⟩ 8080, 1⟩
    (∀ uri, Forwards graphicUri req backend uri → KeepsTarget req backend uri) ↔ req.pathAndQuery ≠ some ['*'] := by
  intro req backend
  refine keepsTarget_iff graphicUri (fun t ht => ?_) backend
  cases ht
  exact .inr ⟨⟨"api?q=1".toList, .inl rfl⟩, by decide⟩

/-- `OPTIONS *` is forwarded, and the asterisk ends up in the authority. -/
theorem asterisk_in_authority :
    let req : Request := ⟨.v4 ⟨192, 168, 1, 1⟩ 1234, some ['*'], ⟨[]⟩⟩
    let backend : Backend := ⟨0, .v4 ⟨10, 0, 0, 1⟩ 8080, 1⟩
    Forwards graphicUri req backend ⟨"10.0.0.1:8080*".toList, ['/']⟩ ∧
      ¬ ∀ uri, Forwards graphicUri req backend uri → KeepsTarget req backend uri := by
  intro req backend
  have hforwards : Forwards graphicUri req backend ⟨"10.0.0.1:8080*".toList, ['/']⟩ :=
    (forwards_iff graphicUri req backend _).2 (by decide)
  exact ⟨hforwards, fun h => absurd (h _ hforwards).2 (by decide)⟩

end Proxy

end Gungho
