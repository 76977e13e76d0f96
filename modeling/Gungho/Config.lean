/-
The configuration: `config.rs` after TOML parsing, and `Config::validate`. The fields nothing of
the data path or the health checker reads (listen addresses, timeouts, log format) are left out.
-/
import Gungho.Net.Parse
import Mathlib.Data.List.Dedup

namespace Gungho

open Gungho.Net

inductive ConfigValidationError where
  | zeroBackends
  | duplicateBackendAddrs
  | invalidAddrs
  deriving DecidableEq, Repr

def ConfigValidationError.message : ConfigValidationError → String
  | .zeroBackends => "configuration must have at least one backend"
  | .duplicateBackendAddrs => "backend addresses must be unique"
  | .invalidAddrs => "all backend addresses must be valid socket addresses"

inductive Algorithm where
  | roundRobin
  | weightedRoundRobin
  | leastConnections
  | ipHash
  | random
  deriving DecidableEq, Repr

instance : Inhabited Algorithm := ⟨.roundRobin⟩

def defaultWeight : UInt32 := 1

structure BackendConfig where
  addr : Text
  weight : UInt32 := defaultWeight
  deriving DecidableEq, Repr

/-- Interval and timeout are in seconds. -/
structure HealthCheckConfig where
  path : Text := "/health".toList
  interval : UInt64 := 5
  timeout : UInt64 := 3
  healthyThreshold : UInt32 := 3
  unhealthyThreshold : UInt32 := 3
  deriving DecidableEq, Repr

structure Config where
  backends : List BackendConfig := []
  algorithm : Algorithm := default
  healthCheck : HealthCheckConfig := {}
  deriving DecidableEq, Repr

/-- `Config::validate`. The uniqueness test compares the address texts. -/
def Config.validate (cfg : Config) : Except ConfigValidationError Unit :=
  if cfg.backends.isEmpty then .error .zeroBackends
  else if (cfg.backends.map (·.addr)).dedup.length ≠ cfg.backends.length then .error .duplicateBackendAddrs
  else if cfg.backends.any (fun b => (SocketAddr.parse b.addr).isNone) then .error .invalidAddrs
  else .ok ()

theorem length_dedup_eq_iff {α : Type} [DecidableEq α] (l : List α) : l.dedup.length = l.length ↔ l.Nodup := by
  constructor
  · intro h
    rw [← List.dedup_eq_self]
    exact (List.dedup_sublist l).eq_of_length h
  · intro h
    rw [List.dedup_eq_self.2 h]

/-- What `validate` accepts: at least one backend, texts that differ pairwise, and addresses that
parse. -/
theorem validate_ok_iff (cfg : Config) :
    cfg.validate = .ok () ↔ cfg.backends ≠ [] ∧ (cfg.backends.map (·.addr)).Nodup ∧
      ∀ b ∈ cfg.backends, (SocketAddr.parse b.addr).isSome := by
  rw [← length_dedup_eq_iff, List.length_map]
  unfold Config.validate
  by_cases h1 : cfg.backends = []
  · simp [h1]
  by_cases h2 : (cfg.backends.map (·.addr)).dedup.length = cfg.backends.length
  · simp [h1, h2, Option.isSome_iff_ne_none, Option.isNone_iff_eq_none]
  · simp [h1, h2]

/-! ## Reading the file -/

/-- The errors of reading and of TOML parsing are those of the libraries. -/
inductive ConfigError (ε δ : Type) where
  | io (e : ε)
  | parse (e : δ)
  | validation (e : ConfigValidationError)

def ConfigError.message {ε δ : Type} (ioMessage : ε → String) (parseMessage : δ → String) : ConfigError ε δ → String
  | .io e => "failed to read config file: " ++ ioMessage e
  | .parse e => "failed to parse config: " ++ parseMessage e
  | .validation e => "config validation failed: " ++ e.message

section

variable {ε δ : Type}

/-- `Config::from_file`. What the file holds and what TOML makes of it are parameters. -/
def Config.fromFile (readToString : Text → Except ε Text) (fromStr : Text → Except δ Config) (path : Text) :
    Except (ConfigError ε δ) Config :=
  match readToString path with
  | .error e => .error (.io e)
  | .ok contents =>
    match fromStr contents with
    | .error e => .error (.parse e)
    | .ok config =>
      match config.validate with
      | .error e => .error (.validation e)
      | .ok () => .ok config

/-- A configuration comes from a file that could be read and parsed, and is valid. -/
theorem fromFile_ok {readToString : Text → Except ε Text} {fromStr : Text → Except δ Config} {path : Text}
    {cfg : Config} (h : Config.fromFile readToString fromStr path = .ok cfg) :
    (∃ contents, readToString path = .ok contents ∧ fromStr contents = .ok cfg) ∧ cfg.validate = .ok () := by
  unfold Config.fromFile at h
  rcases hread : readToString path with e | contents <;> rw [hread] at h
  · cases h
  · rcases hparse : fromStr contents with e | config <;> simp only [hparse] at h
    · cases h
    · rcases hvalid : config.validate with e | u <;> simp only [hvalid] at h
      · cases h
      · cases h
        exact ⟨⟨contents, rfl, hparse⟩, hvalid⟩

end

end Gungho
