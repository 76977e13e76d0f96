/-
How long a guard lives: `_guard` is a local of `handle_request` and is dropped as the call returns,
while the body of the response it returns is still to be streamed from the backend to the client. So a
backend's `active_connections` covers the unfinished exchanges with it only as far as no response is
handed over before its body has come to its end.
-/
import Gungho.Proxy.Guard

namespace Gungho.Proxy

open Gungho.Lib Gungho.Lb Gungho.Net Gungho.Pool

/-! ## Exchanges -/

/-- The body is the backend's stream and has not come to its end. -/
def Response.Streams (resp : Response) : Prop := resp.body = .incoming false

instance (resp : Response) : Decidable resp.Streams := inferInstanceAs (Decidable (resp.body = .incoming false))

/-- The backend with which the exchange of the request is unfinished: from when it is forwarded until
the body of its response has been relayed or dropped. -/
def Handling.exchange : Handling → Option Backend
  | .awaiting backend _ _ => some backend
  | .recording guard resp => if resp.Streams then guard else none
  | .observing guard resp => if resp.Streams then guard else none
  | .leaving guard (.returned _ resp) => if resp.Streams then some guard else none
  | .ended (.returned backend resp) => if resp.Streams then backend else none
  | _ => none

/-- The number of requests whose exchange with the backend is unfinished. -/
def unfinished (b : Backend) (requests : List Handling) : ℕ := requests.countP fun t => t.exchange.any (·.id = b.id)

/-- The response that a step hands over. -/
def handedOver : Handling → Input → Option Response
  | .leaving _ (.returned _ resp), .go _ => some resp
  | _, _ => none

/-- The step does not hand over a response whose body still streams. -/
def HandsOverEnded (_ : Proxy) (t : Handling) (i : Input) : Prop := ∀ resp ∈ handedOver t i, ¬ resp.Streams

instance (s : Proxy) (t : Handling) (i : Input) : Decidable (HandsOverEnded s t i) :=
  inferInstanceAs (Decidable (∀ resp ∈ handedOver t i, ¬ resp.Streams))

/-- An unfinished exchange is under the request's guard. -/
def Guarded (t : Handling) : Prop := ∀ b, t.exchange = some b → t.guard = some b

/-! ## Steps that keep the exchange guarded -/

section

variable {w : ℕ} {parseUri : Text → Option Uri}

theorem guarded_of_none {t : Handling} (h : t.exchange = none) : Guarded t := fun b hb => by
  rw [h] at hb
  cases hb

theorem chosen_exchange (req : Request) (healthy : List Backend) (result : Except Lb.Panic (Option Nat)) :
    (chosen parseUri req healthy result).exchange = none := by
  rcases chosen_cases parseUri req healthy result with ⟨message, h⟩ | h | h | ⟨backend, -, uri, headers, h⟩ <;>
    rw [h] <;> rfl

theorem ended_exchange_relay {exit : Exit} (h : (Handling.ended exit).exchange = none) (i : Input) :
    (Handling.ended (exit.relay i)).exchange = none := by
  unfold Exit.relay
  split
  · rfl
  · exact h

theorem Moved.guarded {s s' : Proxy} {t t' : Handling} {i : Input} (h : Moved w parseUri s t i s' t') (ht : Guarded t)
    (hc : HandsOverEnded s t i) : Guarded t' := by
  cases h with
  | stay => exact ht
  | choose req healthy hr elapsed => exact guarded_of_none (chosen_exchange req healthy _)
  | guard backend uri headers elapsed => exact fun b hb => hb
  | wait => exact ht
  | answer backend uri headers hi resp => exact fun b hb => (Option.ite_none_right_eq_some.1 hb).2
  | unwind backend uri headers hi hexit =>
    obtain rfl | ⟨message, rfl⟩ := hexit <;> exact guarded_of_none rfl
  | count => exact ht
  | observe backend resp elapsed => exact fun b hb => (Option.ite_none_right_eq_some.1 hb).2
  | observeNone resp elapsed => exact guarded_of_none (ite_self none)
  | release guard exit elapsed =>
    -- the guard goes: what is handed over must have no exchange left
    refine guarded_of_none ?_
    cases exit with
    | returned backend resp => exact if_neg (hc resp rfl)
    | _ => rfl
  | relay exit i =>
    have hnone : (Handling.ended exit).exchange = none := by
      rcases he : (Handling.ended exit).exchange with _ | b
      · rfl
      · cases ht b he
    exact guarded_of_none (ended_exchange_relay hnone i)
  | _ => exact guarded_of_none rfl

theorem modular_guarded :
    Modular upkeep (fun r : Request × RandomRange => Handling.start r.1 r.2) (handleRequest w parseUri)
      (fun _ => True) (fun _ => Guarded) HandsOverEnded where
  env _ _ _ := ⟨trivial, fun _ h => h⟩
  spawn _ _ _ := guarded_of_none rfl
  self s t i _ h hc := ⟨trivial, (handleRequest_moved w parseUri s t i).guarded h hc⟩
  other _ _ _ _ _ _ h _ := h

/-- Where every exchange is guarded, the guards are at least as many. -/
theorem unfinished_le_held {requests : List Handling} (h : ∀ t ∈ requests, Guarded t) (b : Backend) :
    unfinished b requests ≤ held b requests := by
  refine List.countP_mono_left fun t ht hb => ?_
  obtain ⟨c, hc, hcb⟩ := (Option.any_eq_true ..).1 hb
  rw [holds_some (h t ht c hc)]
  exact decide_eq_true (of_decide_eq_true hcb).symm

end

/-! ## The result -/

/-- In every state of a run in which no response is handed over before its body has come to its end,
the count of a backend covers its unfinished exchanges, as long as it does not wrap. -/
theorem unfinished_le_active (w : ℕ) (parseUri : Text → Option Uri) (p : Proxy) (choices : List Choice) (b : Backend)
    (hstart : b.getActiveConnections p.pool.mem < 2 ^ w)
    (hover : Along (serving w parseUri) (StepCond HandsOverEnded) (idle p) choices)
    (hfit : b.getActiveConnections p.pool.mem +
      held b (run (serving w parseUri) (idle p) choices).2.threads < 2 ^ w) :
    unfinished b (run (serving w parseUri) (idle p) choices).2.threads ≤
      b.getActiveConnections (run (serving w parseUri) (idle p) choices).2.shared.pool.mem := by
  have hcount := counts_run w parseUri p choices b hstart
  have hidle : Holds (fun _ => True) (fun _ => Guarded) (idle p) := ⟨trivial, fun t ht => by cases ht⟩
  have hguarded := (holds_run modular_guarded choices hidle hover).2
  rw [hcount.trans (Nat.mod_eq_of_lt hfit)]
  exact (unfinished_le_held hguarded b).trans (Nat.le_add_left _ _)

/-- A first request has had an empty body; of the response to a second one the head has come and the body streams. -/
theorem unfinished_le_active_head :
    let req : Request × RandomRange := (⟨.v4 ⟨192, 168, 1, 1⟩ 1234, none, ⟨[]⟩⟩, .lowest)
    let choices := oneAnswered true ++
      [.spawn req, .step 1 (.go 0), .step 1 (.go 0), .step 1 (.go 0), .step 1 (.go 0),
        .step 1 (.respond .ok ⟨[]⟩ false)]
    let b : Backend := ⟨0, .v4 ⟨10, 0, 0, 1⟩ 80, 1⟩
    let s := (run (serving 64 Uri.accept) (idle oneBackend) choices).2
    unfinished b s.threads = 1 ∧ unfinished b s.threads ≤ b.getActiveConnections s.shared.pool.mem := by
  intro req choices b s
  exact ⟨by decide, unfinished_le_active 64 Uri.accept oneBackend choices b (by decide) (by decide) (by decide)⟩

/-- The response is handed over with its body still to come: the backend counts no connection, and
one exchange with it is unfinished. -/
theorem streaming_uncounted :
    let s := (run (serving 64 Uri.accept) (idle oneBackend) (oneAnswered false)).2
    let b : Backend := ⟨0, .v4 ⟨10, 0, 0, 1⟩ 80, 1⟩
    b.getActiveConnections s.shared.pool.mem = 0 ∧ unfinished b s.threads = 1 ∧
      ¬ unfinished b s.threads ≤ b.getActiveConnections s.shared.pool.mem := by
  decide

end Gungho.Proxy
