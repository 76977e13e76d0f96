/-
From the configuration file to the requests. Every configuration that is read without an error makes a pool, and the
service that runs on it sends requests to the configured addresses only, whatever fails, recovers and interleaves.
-/
import Gungho.Proxy.Affinity
import Gungho.Proxy.Progress

namespace Gungho.Proxy

open Gungho.Lib Gungho.Lb Gungho.Net Gungho.Pool Gungho.Health

section

variable {w : ℕ} {parseUri : Text → Option Uri} {config : HealthCheckConfig} {bs list : List Backend}
  {algorithm : Algorithm}

/-- The backend of a request stands in the list it took. -/
theorem Routed.mem {req : Request} {t : Handling} (h : Routed parseUri list req t) {b : Backend}
    (hb : t.backend = some b) :
    b ∈ list := by
  cases t with
  | start req' rng => cases hb
  | selecting req' healthy call => cases hb
  | guarding b' uri headers =>
    cases hb
    exact h.listed
  | awaiting b' uri headers =>
    cases hb
    exact h.listed
  | recording guard resp =>
    cases hb
    exact h.1
  | observing guard resp =>
    cases hb
    exact h.1
  | leaving b' exit =>
    cases hb
    exact h.1
  | ended exit =>
    cases exit with
    | returned guard resp =>
      cases hb
      exact h.1
    | _ => cases hb

/-- A request that took a part of the pool's list, or has yet to take it. -/
def Within (parseUri : Text → Option Uri) (bs : List Backend) (t : Handling) : Prop :=
  ∃ req list, list ⊆ bs ∧ Routed parseUri list req t

theorem modular_within (w : ℕ) (parseUri : Text → Option Uri) (config : HealthCheckConfig) (bs : List Backend)
    (algorithm : Algorithm) :
    Modular (Service.check config) (fun r : Request × RandomRange => Handling.start r.1 r.2) (Service.handle w parseUri)
      (Kept bs algorithm) (fun _ t => t.Of algorithm ∧ Within parseUri bs t) fun _ _ _ => True :=
  (modular_kept w parseUri config bs algorithm).also (fun r => ⟨r.1, [], List.nil_subset _, rfl⟩)
    fun s t i h _ _ ht => by
    obtain ⟨req, list, hlist, hrouted⟩ := ht
    rcases routed_step (w := w) (s := s.proxy) hrouted i with hrouted | hrouted
    · exact ⟨req, list, hlist, hrouted⟩
    · exact ⟨req, s.proxy.pool.healthyBackends, h.list.subset, hrouted⟩

end

/-- A backend of the pool has an entry. -/
theorem entry_of_mem {bs : List Backend} {cs : List BackendConfig}
    (h : List.Forall₂ (fun b c => SocketAddr.parse c.addr = some b.addr ∧ b.weight = c.weight) bs cs) {b : Backend}
    (hb : b ∈ bs) : ∃ c ∈ cs, SocketAddr.parse c.addr = some b.addr ∧ b.weight = c.weight := by
  induction h with
  | nil => cases hb
  | @cons b' c bs cs hbc _ ih =>
    rcases List.mem_cons.1 hb with rfl | hb
    · exact ⟨c, List.mem_cons_self, hbc⟩
    · obtain ⟨c', hc', hentry⟩ := ih hb
      exact ⟨c', List.mem_cons_of_mem _ hc', hentry⟩

/-- Every configuration that `from_file` returns makes a pool; and in every interleaving of the requests with the health
checker on it, under the configured algorithm and health check, a request is forwarded, if at all, to the address of a
configured backend. -/
theorem only_configured {ε δ : Type} (readToString : Text → Except ε Text) (fromStr : Text → Except δ Config)
    (path : Text) (cfg : Config) (hfile : Config.fromFile readToString fromStr path = .ok cfg) :
    ∃ pool, BackendPool.fromConfig cfg.backends = .ok pool ∧
      ∀ (w : ℕ) (parseUri : Text → Option Uri) (metrics metrics' : GunghoMetrics)
        (choices : List (Sched TaskInput (Request × RandomRange) Input)),
        ∀ t ∈ (run (tending w parseUri cfg.healthCheck)
            ⟨.start ⟨pool, createStrategy cfg.algorithm, metrics⟩ metrics', []⟩ choices).2.threads,
          ∀ b, t.backend = some b →
            ∃ c ∈ cfg.backends, SocketAddr.parse c.addr = some b.addr ∧ b.weight = c.weight := by
  obtain ⟨-, hvalid⟩ := fromFile_ok hfile
  obtain ⟨hne, -, hparse⟩ := (validate_ok_iff cfg).1 hvalid
  obtain ⟨pool, hpool⟩ := BackendPool.fromConfig_total hne hparse
  obtain ⟨hfresh, -, -, hentries⟩ := BackendPool.fromConfig_ok hpool
  refine ⟨pool, hpool, ?_⟩
  intro w parseUri metrics metrics' choices t ht b hb
  let p : Proxy := ⟨pool, createStrategy cfg.algorithm, metrics⟩
  have hkept : Kept pool.backends p.strategy.algorithm (Service.start p metrics') :=
    kept_start (p := p) hfresh.synced metrics'
  have hstart : Holds (Kept pool.backends p.strategy.algorithm)
      (fun _ (t : Handling) => t.Of p.strategy.algorithm ∧ Within parseUri pool.backends t)
      ⟨Service.start p metrics', []⟩ :=
    ⟨hkept, by simp⟩
  have hrun := holds_run (modular_within w parseUri cfg.healthCheck _ _) choices hstart (along_free choices _)
  obtain ⟨-, req, list, hlist, hrouted⟩ := hrun.2 t ht
  exact entry_of_mem hentries (hlist (hrouted.mem hb))

theorem only_configured_pair :
    let cfg : Config := { backends := [⟨"10.0.0.1:80".toList, 1⟩, ⟨"10.0.0.2:80".toList, 2⟩], algorithm := .random }
    ∃ pool, BackendPool.fromConfig cfg.backends = .ok pool ∧
      ∀ (w : ℕ) (parseUri : Text → Option Uri) (metrics metrics' : GunghoMetrics)
        (choices : List (Sched TaskInput (Request × RandomRange) Input)),
        ∀ t ∈ (run (tending w parseUri cfg.healthCheck)
            ⟨.start ⟨pool, createStrategy cfg.algorithm, metrics⟩ metrics', []⟩ choices).2.threads,
          ∀ b, t.backend = some b →
            ∃ c ∈ cfg.backends, SocketAddr.parse c.addr = some b.addr ∧ b.weight = c.weight := by
  intro cfg
  have hvalid : cfg.validate = .ok () := by decide
  -- a file whose text the parser takes for this configuration
  let readToString : Text → Except Unit Text := fun _ => .ok []
  let fromStr : Text → Except Unit Config := fun _ => .ok cfg
  have hfile : Config.fromFile readToString fromStr "gungho.toml".toList = .ok cfg := by
    simp only [Config.fromFile, readToString, fromStr, hvalid]
  exact only_configured readToString fromStr "gungho.toml".toList cfg hfile

end Gungho.Proxy
