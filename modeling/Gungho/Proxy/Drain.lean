/-
Taking a backend out of rotation. A request chooses from its snapshot, so after the backend has left
the healthy list it still gets the requests that took their snapshot before. From then on no other
request reaches it, and its connections can only go down to what is on the way already.
-/
import Gungho.Proxy.Guard

namespace Gungho.Proxy

open Gungho.Lib Gungho.Lb Gungho.Net Gungho.Pool

/-! ## Requests on their way to a backend -/

/-- The request is connected to the backend or may still choose it. -/
def Handling.mayReach (b : Backend) : Handling → Bool
  | .selecting _ healthy _ => healthy.any (·.id = b.id)
  | .guarding c _ _ => c.id = b.id
  | t => t.holds b

/-- The requests that are connected to the backend or may still choose it. -/
def onTheWay (b : Backend) (requests : List Handling) : ℕ := requests.countP (Handling.mayReach b)

/-- The healthy list does not have the backend. -/
def OutOfRotation (b : Backend) (s : Proxy) : Prop := ∀ c ∈ s.pool.healthyBackends, c.id ≠ b.id

instance (b : Backend) (s : Proxy) : Decidable (OutOfRotation b s) :=
  inferInstanceAs (Decidable (∀ c ∈ s.pool.healthyBackends, c.id ≠ b.id))

section

variable {w : ℕ} {parseUri : Text → Option Uri} {b : Backend}

theorem mayReach_of_holds {t : Handling} (h : t.holds b = true) : t.mayReach b = true := by
  cases t with
  | selecting req healthy call => cases h
  | guarding c uri headers => cases h
  | _ => exact h

theorem held_le_onTheWay (requests : List Handling) : held b requests ≤ onTheWay b requests :=
  List.countP_mono_left fun _ _ h => mayReach_of_holds h

/-- What `select` answers leads to a backend of the snapshot or to none. -/
theorem mayReach_chosen {req : Request} {healthy : List Backend} {result : Except Lb.Panic (Option ℕ)}
    (h : (chosen parseUri req healthy result).mayReach b = true) : healthy.any (·.id = b.id) = true := by
  rcases chosen_cases parseUri req healthy result with ⟨message, hc⟩ | hc | hc | ⟨c, hmem, uri, headers, hc⟩ <;>
    rw [hc] at h
  · cases h
  · cases h
  · cases h
  · exact List.any_eq_true.2 ⟨c, hmem, h⟩

/-- While the backend is out of rotation a step puts no request on the way to it. -/
theorem Moved.mayReach {s s' : Proxy} {t t' : Handling} {i : Input} (hmoved : Moved w parseUri s t i s' t')
    (hout : OutOfRotation b s) (h : t'.mayReach b = true) : t.mayReach b = true := by
  cases hmoved with
  | stay => exact h
  | unpolled req rng => cases h
  | snapshot req rng elapsed =>
    obtain ⟨c, hc, hid⟩ := List.any_eq_true.1 h
    exact absurd (of_decide_eq_true hid) (hout c hc)
  | select req healthy hr elapsed => exact h
  | choose req healthy hr elapsed => exact mayReach_chosen h
  | guard c uri headers elapsed => exact h
  | wait c uri headers elapsed => exact h
  | answer c uri headers hi resp => exact h
  | unwind c uri headers hi hexit => exact h
  | count guard resp elapsed => exact h
  | observe c resp elapsed => exact h
  | observeNone resp elapsed => cases h
  | release guard exit elapsed => cases h
  | relay exit i => cases h

end

/-! ## The result -/

/-- From a moment on at which the backend is out of rotation and for as long as it stays out, whatever else happens:
the requests that are connected to it or may reach it were so at that moment, and its connections are at most as many
as these requests were. -/
theorem drains (w : ℕ) (parseUri : Text → Option Uri) (p : Proxy) (b : Backend)
    (hzero : b.getActiveConnections p.pool.mem = 0) (before after : List Choice)
    (hout : Along (serving w parseUri) (fun s _ => OutOfRotation b s.shared)
      (run (serving w parseUri) (idle p) before).2 after) :
    let s := (run (serving w parseUri) (idle p) before).2
    let s' := (run (serving w parseUri) (idle p) (before ++ after)).2
    (∀ (k : ℕ) (u : Handling), s'.threads[k]? = some u → u.mayReach b = true →
        ∃ t, s.threads[k]? = some t ∧ t.mayReach b = true) ∧
      b.getActiveConnections s'.shared.pool.mem ≤ onTheWay b s.threads := by
  intro s s'
  have hrun : s' = (run (serving w parseUri) s after).2 := by
    show (run (serving w parseUri) (idle p) (before ++ after)).2 = _
    rw [run_append]
  have hplaces : ∀ (k : ℕ) (u : Handling), s'.threads[k]? = some u → u.mayReach b = true →
      ∃ t, s.threads[k]? = some t ∧ t.mayReach b = true := by
    intro k u hu hm
    rw [hrun] at hu
    exact marked_before (OutOfRotation b) (fun t : Handling => t.mayReach b = true) (fun r : Request × RandomRange =>
      show ¬ (Handling.start r.1 r.2).mayReach b = true from Bool.false_ne_true)
      (fun s t i => (handleRequest_moved w parseUri s t i).mayReach) after hout hu hm
  refine ⟨hplaces, ?_⟩
  have hcount := counts_run w parseUri p (before ++ after) b (by rw [hzero]; exact Nat.two_pow_pos w)
  rw [Counts, hzero, Nat.zero_add] at hcount
  calc b.getActiveConnections s'.shared.pool.mem = held b s'.threads % 2 ^ w := hcount
    _ ≤ held b s'.threads := Nat.mod_le _ _
    _ ≤ onTheWay b s'.threads := held_le_onTheWay _
    _ ≤ onTheWay b s.threads := countP_le_of_marked hplaces

/-- The second request takes its snapshot after the backend has left the list; the first, which took it before, is
still forwarded. -/
theorem drains_one :
    let b : Backend := ⟨0, .v4 ⟨10, 0, 0, 1⟩ 80, 1⟩
    let req : Request × RandomRange := (⟨.v4 ⟨192, 168, 1, 1⟩ 1234, none, ⟨[]⟩⟩, .lowest)
    let before : List Choice :=
      [.spawn req, .step 0 (.go 0), .outside (.setHealth b false), .outside (.replaceCache [])]
    let after : List Choice := List.replicate 3 (.step 0 (.go 0)) ++ .spawn req :: List.replicate 3 (.step 1 (.go 0))
    b.getActiveConnections (run (serving 64 Uri.accept) (idle oneBackend) (before ++ after)).2.shared.pool.mem ≤
      onTheWay b (run (serving 64 Uri.accept) (idle oneBackend) before).2.threads := by
  intro b req before after
  have hout : Along (serving 64 Uri.accept) (fun s _ => OutOfRotation b s.shared)
      (run (serving 64 Uri.accept) (idle oneBackend) before).2 after := by decide
  exact (drains 64 Uri.accept oneBackend b (by decide) before after hout).2

end Gungho.Proxy
