/-
The metrics against the responses: every path of `handle_request` that makes a response records it,
except the one on which the URI of the request to the backend does not parse, which returns 400 and
records nothing. So the counters account for all responses exactly when every such URI parses.
-/
import Gungho.Proxy.Handle

namespace Gungho.Proxy

open Gungho.Lib Gungho.Lb Gungho.Net Gungho.Pool

/-! ## Responses and their series -/

/-- The labels of the series of a returned response: the backend and the status code. -/
def Exit.series : Exit → Option (Text × Text)
  | .returned backend resp => some (label backend, resp.status.asStr)
  | _ => none

/-- The series that the request has incremented. -/
def Handling.counted : Handling → Option (Text × Text)
  | .observing guard resp => some (label guard, resp.status.asStr)
  | .leaving _ exit => exit.series
  | .ended exit => exit.series
  | _ => none

/-- The `backend` label under which the request has observed its duration. -/
def Handling.sampled : Handling → Option Text
  | .leaving _ exit => exit.series.map Prod.fst
  | .ended exit => exit.series.map Prod.fst
  | _ => none

def Exit.isRejected : Exit → Bool
  | .rejected _ => true
  | _ => false

def Handling.isRejected : Handling → Bool
  | .leaving _ exit => exit.isRejected
  | .ended exit => exit.isRejected
  | _ => false

/-- The request is not between its first metrics update and its return. -/
def Handling.settled : Handling → Bool
  | .observing _ _ => false
  | .leaving _ _ => false
  | _ => true

/-- The metrics account for the responses that the requests have returned: the counters sum to the number
of responses, each series counts the responses with its backend and status, and for every `backend`
label the histogram has as many samples as the counters of the label sum to. -/
structure Accounts (s : Threads Proxy Handling) : Prop where
  responses : s.shared.metrics.requestsTotal.total (fun _ n => n) = s.threads.countP (·.response.isSome)
  statuses : ∀ series, s.shared.metrics.requestsTotal.value series =
    s.threads.countP (·.exit.bind Exit.series = some series)
  samples : ∀ backend, (s.shared.metrics.requestDurationSeconds.value backend).length =
    s.shared.metrics.requestsTotal.total fun series n => if series.1 = backend then n else 0

/-- The text that the step parses as a URI. -/
def parsed : Handling → Input → Option Text
  | .selecting req healthy call, .go _ =>
    match call.result with
    | some (.ok (some index)) => healthy[index]?.map fun backend => backendUri backend.addr req.pathAndQuery
    | _ => none
  | _, _ => none

/-- What the step parses is a URI. -/
def Parses (parseUri : Text → Option Uri) (_ : Proxy) (t : Handling) (i : Input) : Prop :=
  ∀ text ∈ parsed t i, (parseUri text).isSome = true

instance (parseUri : Text → Option Uri) (s : Proxy) (t : Handling) (i : Input) : Decidable (Parses parseUri s t i) :=
  inferInstanceAs (Decidable (∀ text ∈ parsed t i, (parseUri text).isSome = true))

/-! ## What a step does -/

section

variable {w : ℕ} {parseUri : Text → Option Uri}

theorem chosen_counted (req : Request) (healthy : List Backend) (result : Except Lb.Panic (Option Nat)) :
    (chosen parseUri req healthy result).counted = none ∧ (chosen parseUri req healthy result).sampled = none := by
  rcases chosen_cases parseUri req healthy result with ⟨message, h⟩ | h | h | ⟨b, -, uri, headers, h⟩ <;> rw [h] <;>
    exact ⟨rfl, rfl⟩

theorem series_relay (exit : Exit) (i : Input) : (exit.relay i).series = exit.series := by
  unfold Exit.relay
  split <;> rfl

/-- A step increments one series and marks the request as counted there, observes one duration and
marks it as sampled, or leaves metrics and marks alone. -/
theorem Moved.metrics {s s' : Proxy} {t t' : Handling} {i : Input} (h : Moved w parseUri s t i s' t') :
    (s'.metrics = s.metrics ∧ t'.counted = t.counted ∧ t'.sampled = t.sampled) ∨
    (∃ status backend, s'.metrics = s.metrics.incRequests status backend ∧ t.counted = none ∧
      t'.counted = some (backend, status.asStr) ∧ t'.sampled = t.sampled) ∨
    ∃ backend elapsed, s'.metrics = s.metrics.observeDuration backend elapsed ∧ t.sampled = none ∧
      t'.sampled = some backend ∧ t'.counted = t.counted := by
  cases h with
  | choose req healthy hr elapsed => exact .inl ⟨rfl, chosen_counted req healthy _⟩
  | unwind backend uri headers hi hexit =>
    left
    obtain rfl | ⟨message, rfl⟩ := hexit <;> exact ⟨rfl, rfl, rfl⟩
  | count guard resp elapsed => exact .inr (.inl ⟨resp.status, label guard, rfl, rfl, rfl, rfl⟩)
  | observe backend resp elapsed => exact .inr (.inr ⟨label (some backend), elapsed, rfl, rfl, rfl, rfl⟩)
  | observeNone resp elapsed => exact .inr (.inr ⟨label none, elapsed, rfl, rfl, rfl, rfl⟩)
  | relay exit i =>
    exact .inl ⟨rfl, series_relay exit i, congrArg (Option.map Prod.fst) (series_relay exit i)⟩
  | _ => exact .inl ⟨rfl, rfl, rfl⟩

theorem parses_of_none {s : Proxy} {t : Handling} {i : Input} (h : parsed t i = none) : Parses parseUri s t i :=
  fun text ht => by rw [h] at ht; cases ht

/-- The 400 comes from a text that is no URI, and from nothing else. -/
theorem chosen_rejected (s : Proxy) (req : Request) (healthy : List Backend) {call : Call}
    {result : Except Lb.Panic (Option Nat)} (hr : call.result = some result) (elapsed : Nat) :
    (chosen parseUri req healthy result).isRejected = true ↔
      ¬ Parses parseUri s (.selecting req healthy call) (.go elapsed) := by
  rcases result with panic | _ | index
  · exact iff_of_false Bool.false_ne_true (not_not.2 (parses_of_none (by simp only [parsed, hr])))
  · exact iff_of_false Bool.false_ne_true (not_not.2 (parses_of_none (by simp only [parsed, hr])))
  rcases hb : healthy[index]? with _ | backend
  · have hnone : parsed (.selecting req healthy call) (.go elapsed) = none := by
      simp only [parsed, hr, hb, Option.map_none]
    refine iff_of_false ?_ (not_not.2 (parses_of_none hnone))
    simp only [chosen, hb]
    exact Bool.false_ne_true
  have hsome :
      parsed (.selecting req healthy call) (.go elapsed) = some (backendUri backend.addr req.pathAndQuery) := by
    simp only [parsed, hr, hb, Option.map_some]
  have hparses : Parses parseUri s (.selecting req healthy call) (.go elapsed) ↔
      (parseUri (backendUri backend.addr req.pathAndQuery)).isSome = true := by
    unfold Parses
    rw [hsome]
    simp
  simp only [chosen, hb, hparses]
  rcases parseUri (backendUri backend.addr req.pathAndQuery) with _ | uri
  · exact iff_of_true rfl Bool.false_ne_true
  · refine iff_of_false ?_ (not_not.2 rfl)
    dsimp only
    split <;> exact Bool.false_ne_true

theorem isRejected_relay (exit : Exit) (i : Input) : (exit.relay i).isRejected = exit.isRejected := by
  unfold Exit.relay
  split <;> rfl

/-- A request is rejected by the step that parses a text that is no URI, and stays so. -/
theorem Moved.rejected {s s' : Proxy} {t t' : Handling} {i : Input} (h : Moved w parseUri s t i s' t') :
    t'.isRejected = true ↔ t.isRejected = true ∨ ¬ Parses parseUri s t i := by
  have hkeep : parsed t i = none → t'.isRejected = t.isRejected →
      (t'.isRejected = true ↔ t.isRejected = true ∨ ¬ Parses parseUri s t i) :=
    fun hnone hsame => by rw [hsame, or_iff_left (not_not.2 (parses_of_none hnone))]
  cases h with
  | stay t hi =>
    refine hkeep ?_ rfl
    unfold parsed
    split
    · exact absurd rfl (hi _)
    · rfl
  | select req healthy hr elapsed => exact hkeep (by simp only [parsed, hr]) rfl
  | choose req healthy hr elapsed =>
    rw [chosen_rejected s req healthy hr elapsed]
    exact (or_iff_right Bool.false_ne_true).symm
  | unwind backend uri headers hi hexit =>
    obtain rfl | ⟨message, rfl⟩ := hexit <;> exact hkeep rfl rfl
  | relay exit i => exact hkeep rfl (isRejected_relay exit i)
  | _ => exact hkeep rfl rfl

/-! ## Accounts of the metrics -/

/-- The counters of the series that satisfy `p` sum to the requests counted in such a series. -/
theorem accounted_total (w : ℕ) (parseUri : Text → Option Uri) (p : Text × Text → Bool) :
    Accounted upkeep (fun r : Request × RandomRange => Handling.start r.1 r.2) (handleRequest w parseUri)
      (fun _ => True) (fun _ _ => True) (fun _ _ _ => True)
      (fun s x => s.metrics.requestsTotal.total (fun series n => if p series then n else 0) = x)
      (fun t => if t.counted.any p then 1 else 0) where
  env s e x hx := by cases e <;> exact hx
  spawn _ := rfl
  next s t i x _ _ _ hx := by
    rcases (handleRequest_moved w parseUri s t i).metrics with ⟨hm, hcounted, -⟩ |
      ⟨status, backend, hm, ht, hcounted, -⟩ | ⟨backend, elapsed, hm, -, -, hcounted⟩
    · rw [hm, hcounted]
      exact hx
    · rw [ht] at hx
      rw [hm, hcounted, Option.any_some]
      unfold GunghoMetrics.incRequests
      rw [Series.total_increment, hx]
      exact (congrArg (· + _) (Nat.zero_add x)).trans (Nat.add_comm _ _)
    · rw [hm, hcounted]
      exact hx

/-- A histogram has a sample of each request sampled under its label. -/
theorem accounted_samples (w : ℕ) (parseUri : Text → Option Uri) (backend : Text) :
    Accounted upkeep (fun r : Request × RandomRange => Handling.start r.1 r.2) (handleRequest w parseUri)
      (fun _ => True) (fun _ _ => True) (fun _ _ _ => True)
      (fun s x => (s.metrics.requestDurationSeconds.value backend).length = x)
      (fun t => if t.sampled.any (· = backend) then 1 else 0) where
  env s e x hx := by cases e <;> exact hx
  spawn _ := rfl
  next s t i x _ _ _ hx := by
    rcases (handleRequest_moved w parseUri s t i).metrics with ⟨hm, -, hsampled⟩ |
      ⟨status, c, hm, -, -, hsampled⟩ | ⟨c, elapsed, hm, ht, hsampled, -⟩
    · rw [hm, hsampled]
      exact hx
    · rw [hm, hsampled]
      exact hx
    · rw [ht, Option.any_none, if_neg Bool.false_ne_true, Nat.zero_add] at hx
      rw [hm, hsampled, Option.any_some]
      unfold GunghoMetrics.observeDuration
      rw [Series.value_update]
      by_cases hc : backend = c
      · rw [if_pos hc, if_pos (decide_eq_true hc.symm), List.length_cons, ← hc, hx, Nat.add_comm]
      · rw [if_neg hc, if_neg (by simpa using Ne.symm hc), hx, Nat.zero_add]

end

/-! ## When the requests have settled -/

section

variable {t : Handling} {requests : List Handling}

theorem counted_of_settled (h : t.settled = true) :
    t.counted = t.exit.bind Exit.series ∧ t.sampled = t.counted.map Prod.fst := by
  cases t with
  | observing guard resp => cases h
  | leaving guard exit => cases h
  | _ => exact ⟨rfl, rfl⟩

/-- A request with a response is counted or was rejected, not both. -/
theorem response_of_settled (h : t.settled = true) :
    (t.response.isSome = true ↔ t.counted.isSome = true ∨ t.isRejected = true) ∧
      (t.isRejected = true → t.counted = none) := by
  cases t with
  | observing guard resp => cases h
  | leaving guard exit => cases h
  | ended exit =>
    cases exit with
    | returned backend resp => exact ⟨iff_of_true rfl (.inl rfl), fun h => by cases h⟩
    | rejected resp => exact ⟨iff_of_true rfl (.inr rfl), fun _ => rfl⟩
    | dropped => exact ⟨iff_of_false Bool.false_ne_true (by rintro (h | h) <;> cases h), fun _ => rfl⟩
    | panicked message => exact ⟨iff_of_false Bool.false_ne_true (by rintro (h | h) <;> cases h), fun _ => rfl⟩
  | _ => exact ⟨iff_of_false Bool.false_ne_true (by rintro (h | h) <;> cases h), fun _ => rfl⟩

theorem countP_series (h : ∀ t ∈ requests, t.settled = true) (series : Text × Text) :
    requests.countP (·.counted.any (· = series)) = requests.countP (·.exit.bind Exit.series = some series) := by
  refine List.countP_congr fun t ht => ?_
  rw [(counted_of_settled (h t ht)).1, decide_eq_true_iff]
  rcases t.exit.bind Exit.series with _ | k <;> simp

theorem countP_sampled (h : ∀ t ∈ requests, t.settled = true) (backend : Text) :
    requests.countP (·.sampled.any (· = backend)) = requests.countP (·.counted.any fun k => k.1 = backend) := by
  refine List.countP_congr fun t ht => ?_
  rw [(counted_of_settled (h t ht)).2, Option.any_map]

theorem countP_response (h : ∀ t ∈ requests, t.settled = true) :
    requests.countP (·.response.isSome) =
      requests.countP (·.counted.any fun _ => true) + requests.countP Handling.isRejected := by
  induction requests with
  | nil => rfl
  | cons t requests ih =>
    rw [List.forall_mem_cons] at h
    obtain ⟨hresp, hrej⟩ := response_of_settled h.1
    rw [List.countP_cons, List.countP_cons, List.countP_cons, ih h.2]
    rcases hc : t.counted with _ | series
    · have hiff : t.response.isSome = true ↔ t.isRejected = true := by simpa [hc] using hresp
      simp only [hiff, Option.any_none, Bool.false_eq_true, if_false]
      omega
    · have hnot : ¬ t.isRejected = true := fun h => by rw [hrej h] at hc; cases hc
      have hsome : t.response.isSome = true := hresp.2 (.inl (by rw [hc]; rfl))
      simp only [hsome, hnot, Option.any_some, if_true, Bool.false_eq_true, if_false]
      omega

end

/-! ## The result -/

/-- What the metrics count in any state of a run from fresh metrics. -/
theorem counts_of_run (w : ℕ) (parseUri : Text → Option Uri) (p : Proxy) (hp : p.metrics = .new)
    (choices : List Choice) :
    let s := (run (serving w parseUri) (idle p) choices).2
    (∀ q : Text × Text → Bool, s.shared.metrics.requestsTotal.total (fun series n => if q series then n else 0) =
      s.threads.countP (·.counted.any q)) ∧
    ∀ backend, (s.shared.metrics.requestDurationSeconds.value backend).length =
      s.threads.countP (·.sampled.any (· = backend)) := by
  intro s
  have hidle : Holds (fun _ => True) (fun _ _ => True) (idle p) := ⟨trivial, fun _ _ => trivial⟩
  refine ⟨fun q => ?_, fun backend => ?_⟩
  · have hzero : p.metrics.requestsTotal.total (fun series n => if q series then n else 0) = 0 := by rw [hp]; rfl
    rw [← sum_indicator]
    exact balanced_run modular_true (accounted_total w parseUri q) hidle hzero choices (along_free choices _)
  · have hzero : (p.metrics.requestDurationSeconds.value backend).length = 0 := by rw [hp]; rfl
    rw [← sum_indicator]
    exact balanced_run modular_true (accounted_samples w parseUri backend) hidle hzero choices (along_free choices _)

/-- Wherever no request is between its first metrics update and its return, the metrics account for the
responses exactly when every URI that a request parses is one. -/
theorem accounts_iff_parses (w : ℕ) (parseUri : Text → Option Uri) (p : Proxy) (hp : p.metrics = .new)
    (choices : List Choice) (hsettled : ∀ t ∈ (run (serving w parseUri) (idle p) choices).2.threads, t.settled = true) :
    Accounts (run (serving w parseUri) (idle p) choices).2 ↔
      Along (serving w parseUri) (StepCond (Parses parseUri)) (idle p) choices := by
  obtain ⟨htotal, hsamples⟩ := counts_of_run w parseUri p hp choices
  have hidle : ∀ t ∈ (idle p).threads, ¬ t.isRejected = true := fun t ht => by cases ht
  have hspawn : ∀ r : Request × RandomRange, ¬ (Handling.start r.1 r.2).isRejected = true := fun _ => Bool.false_ne_true
  have hmark : ∀ s t i, (handleRequest w parseUri s t i).2.isRejected = true ↔
      t.isRejected = true ∨ ¬ Parses parseUri s t i :=
    fun s t i => (handleRequest_moved w parseUri s t i).rejected
  have hunmarked : (∀ t ∈ (run (serving w parseUri) (idle p) choices).2.threads, ¬ t.isRejected = true) ↔
      Along (serving w parseUri) (StepCond (Parses parseUri)) (idle p) choices :=
    along_iff_unmarked (fun t : Handling => t.isRejected = true) hspawn hmark choices hidle
  rw [← hunmarked]
  generalize (run (serving w parseUri) (idle p) choices).2 = s at htotal hsamples hsettled ⊢
  have hall : s.shared.metrics.requestsTotal.total (fun _ n => n) = s.threads.countP (·.counted.any fun _ => true) :=
    htotal fun _ => true
  have hresponse := countP_response hsettled
  constructor
  · intro h t ht hr
    have hpos : 0 < s.threads.countP Handling.isRejected := List.countP_pos_iff.2 ⟨t, ht, hr⟩
    have := h.responses
    omega
  · intro h
    have hzero : s.threads.countP Handling.isRejected = 0 := List.countP_eq_zero.2 h
    refine ⟨by omega, fun series => ?_, fun backend => ?_⟩
    · rw [← Series.total_single, ← countP_series hsettled]
      simpa only [decide_eq_true_eq] using htotal fun k => k = series
    · rw [hsamples backend, countP_sampled hsettled]
      simpa only [decide_eq_true_eq] using (htotal fun k => k.1 = backend).symm

theorem accounts_iff_parses_answered :
    Accounts (run (serving 64 Uri.accept) (idle oneBackend) (oneAnswered true)).2 :=
  (accounts_iff_parses 64 _ oneBackend rfl (oneAnswered true) (by decide)).2 (by decide)

/-- A request for `target`, up to where the URI is parsed. -/
def oneParsed (target : Text) : List Choice :=
  [.spawn (⟨.v4 ⟨192, 168, 1, 1⟩ 1234, some target, ⟨[]⟩⟩, .lowest), .step 0 (.go 0), .step 0 (.go 0), .step 0 (.go 0)]

theorem rejected_of_oneParsed {parseUri : Text → Option Uri} {target : Text}
    (h : parseUri (backendUri (.v4 ⟨10, 0, 0, 1⟩ 80) (some target)) = none) :
    let s := (run (serving 64 parseUri) (idle oneBackend) (oneParsed target)).2
    s.threads = [.ended (.rejected badRequest)] ∧ s.shared.metrics = .new := by
  have hchosen : (run (serving 64 parseUri) (idle oneBackend) (oneParsed target)).2.threads =
      [chosen parseUri ⟨.v4 ⟨192, 168, 1, 1⟩ 1234, some target, ⟨[]⟩⟩ [⟨0, .v4 ⟨10, 0, 0, 1⟩ 80, 1⟩]
        (.ok (some 0))] := rfl
  refine ⟨hchosen.trans ?_, rfl⟩
  simp only [chosen, List.getElem?_cons_zero, h]

theorem lt_length_append {scheme : Text} (hscheme : scheme ≠ []) (addr target : Text) :
    target.length < (scheme ++ addr ++ target).length := by
  have hpos : 0 < scheme.length := List.length_pos_iff.2 hscheme
  rw [List.length_append, List.length_append]
  omega

theorem lt_length_backendUri (addr : SocketAddr) (target : Text) :
    target.length < (backendUri addr (some target)).length :=
  lt_length_append (by decide : "http://".toList ≠ []) addr.toText target

/-- The longest target that is a URI is none behind the address of the backend: the request is answered
with 400, and no counter counts it. -/
theorem longest_target_uncounted :
    let parseUri : Text → Option Uri := fun text => if text.length ≤ 65534 then Uri.accept text else none
    let target : Text := '/' :: List.replicate 65533 'a'
    let s := (run (serving 64 parseUri) (idle oneBackend) (oneParsed target)).2
    (parseUri target).isSome = true ∧ s.threads.map Handling.response = [some badRequest] ∧
      s.shared.metrics.requestsTotal.total (fun _ n => n) = 0 ∧ ¬ Accounts s := by
  intro parseUri target s
  have hlen : target.length = 65534 := by rw [List.length_cons, List.length_replicate]
  obtain ⟨hthreads, hmetrics⟩ : s.threads = [.ended (.rejected badRequest)] ∧ s.shared.metrics = .new :=
    rejected_of_oneParsed (if_neg (not_le.2 (hlen ▸ lt_length_backendUri _ target)))
  have hlongest : (parseUri target).isSome = true := by
    rw [show parseUri target = Uri.accept target from if_pos hlen.le]
    rfl
  clear_value s target
  have htotal : s.shared.metrics.requestsTotal.total (fun _ n => n) = 0 := by rw [hmetrics]; rfl
  refine ⟨hlongest, by rw [hthreads]; rfl, htotal, fun h => ?_⟩
  have hresponses := h.responses
  rw [htotal, hthreads] at hresponses
  exact absurd hresponses (by decide)

end Gungho.Proxy
