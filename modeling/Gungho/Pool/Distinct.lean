/-
Addresses as keys. `Config::validate` compares the address texts, every later lookup compares the
parsed `SocketAddr`: on an accepted configuration each by-address operation governs exactly one
backend if and only if no two entries spell one address in two ways.
-/
import Gungho.Pool.Backend

namespace Gungho.Pool

open Gungho.Net

/-! ## Lookup by a distinct key -/

theorem find?_addr_of_nodup {bs : List Backend} (hn : (bs.map (·.addr)).Nodup) {b : Backend} (hb : b ∈ bs) :
    bs.find? (·.addr = b.addr) = some b := by
  rcases hf : bs.find? (·.addr = b.addr) with _ | c
  · rw [List.find?_eq_none] at hf
    simpa using hf b hb
  · have hc : c.addr = b.addr := by simpa using List.find?_some hf
    have hcb : c = b := List.inj_on_of_nodup_map hn (List.mem_of_find?_eq_some hf) hb hc
    rw [← hcb] at hf ⊢
    exact hf

theorem getHealthByAddr_of_nodup {p : BackendPool} (hn : (p.backends.map (·.addr)).Nodup) {b : Backend}
    (hb : b ∈ p.backends) : p.getHealthByAddr b.addr = some (b.getHealth p.mem) := by
  unfold BackendPool.getHealthByAddr
  rw [find?_addr_of_nodup hn hb, Option.map_some]

theorem addrs_eq {bs : List Backend} {cs : List BackendConfig}
    (h : List.Forall₂ (fun b c => SocketAddr.parse c.addr = some b.addr ∧ b.weight = c.weight) bs cs) :
    (bs.map (·.addr)).map some = (cs.map (·.addr)).map SocketAddr.parse := by
  induction h with
  | nil => rfl
  | cons hbc _ ih =>
    simp only [List.map_cons] at ih ⊢
    rw [ih, hbc.1]

/-- The pool's addresses are distinct when the parsed texts are. -/
theorem nodup_addrs_iff {bs : List Backend} {cs : List BackendConfig}
    (h : List.Forall₂ (fun b c => SocketAddr.parse c.addr = some b.addr ∧ b.weight = c.weight) bs cs) :
    (bs.map (·.addr)).Nodup ↔ ((cs.map (·.addr)).map SocketAddr.parse).Nodup := by
  rw [← addrs_eq h, List.nodup_map_iff (fun _ _ => Option.some.inj)]

/-! ## Accepted configurations -/

/-- The pool has one backend for each entry, in order and with the entry's weight, and its
addresses are keys: whatever the flags are, the by-address operations on a backend's address are
the operations on that backend, and a map keyed by address has one owner for each key. -/
structure KeyedByAddr (cs : List BackendConfig) (p : BackendPool) : Prop where
  entries : List.Forall₂ (fun b c => SocketAddr.parse c.addr = some b.addr ∧ b.weight = c.weight) p.backends cs
  distinct : (p.backends.map (·.addr)).Nodup
  getHealth : ∀ q : BackendPool, q.backends = p.backends → ∀ b ∈ p.backends,
    q.getHealthByAddr b.addr = some (b.getHealth q.mem)
  mark : ∀ q : BackendPool, q.backends = p.backends → ∀ i b, p.backends[i]? = some b →
    q.markHealthyByAddr b.addr = q.markHealthy i ∧ q.markUnhealthyByAddr b.addr = q.markUnhealthy i
  owner : ∀ addr, ∀ b ∈ p.backends, ∀ c ∈ p.backends, b.addr = addr → c.addr = addr → b = c

theorem keyedByAddr_of_nodup {cs : List BackendConfig} {p : BackendPool}
    (h : List.Forall₂ (fun b c => SocketAddr.parse c.addr = some b.addr ∧ b.weight = c.weight) p.backends cs)
    (hn : (p.backends.map (·.addr)).Nodup) : KeyedByAddr cs p := by
  refine ⟨h, hn, fun q hq b hb => ?_, fun q hq i b hi => ?_, fun addr b hb c hc hba hca => ?_⟩
  · exact getHealthByAddr_of_nodup (hq ▸ hn) (hq ▸ hb)
  · have hf := find?_addr_of_nodup hn (List.mem_of_getElem? hi)
    unfold BackendPool.markHealthyByAddr BackendPool.markUnhealthyByAddr BackendPool.markHealthy
      BackendPool.markUnhealthy
    rw [hq, hf, hi]
    exact ⟨rfl, rfl⟩
  · exact List.inj_on_of_nodup_map hn hb hc (hba.trans hca.symm)

/-- On an accepted configuration the pool is built and its addresses are keys exactly when texts
that differ parse to different addresses. -/
theorem keyedByAddr_iff_spellings (cfg : Config) (hv : cfg.validate = .ok ()) :
    (∃ p, BackendPool.fromConfig cfg.backends = .ok p ∧ KeyedByAddr cfg.backends p) ↔
      ∀ c ∈ cfg.backends, ∀ c' ∈ cfg.backends,
        SocketAddr.parse c.addr = SocketAddr.parse c'.addr → c.addr = c'.addr := by
  obtain ⟨hne, htexts, hparse⟩ := (validate_ok_iff cfg).1 hv
  have hinj : ((cfg.backends.map (·.addr)).map SocketAddr.parse).Nodup ↔
      ∀ c ∈ cfg.backends, ∀ c' ∈ cfg.backends,
        SocketAddr.parse c.addr = SocketAddr.parse c'.addr → c.addr = c'.addr := by
    rw [List.nodup_map_iff_inj_on htexts]
    simp only [List.mem_map, forall_exists_index, and_imp, forall_apply_eq_imp_iff₂]
  rw [← hinj]
  constructor
  · rintro ⟨p, -, hp⟩
    exact (nodup_addrs_iff hp.entries).1 hp.distinct
  · intro h
    obtain ⟨p, hp⟩ := BackendPool.fromConfig_total hne hparse
    have hentries := (BackendPool.fromConfig_ok hp).2.2.2
    exact ⟨p, hp, keyedByAddr_of_nodup hentries ((nodup_addrs_iff hentries).2 h)⟩

theorem keyedByAddr_two_hosts :
    ∃ p, BackendPool.fromConfig [⟨"10.0.0.1:80".toList, 5⟩, ⟨"[::1]:80".toList, 1⟩] = .ok p ∧
      KeyedByAddr [⟨"10.0.0.1:80".toList, 5⟩, ⟨"[::1]:80".toList, 1⟩] p :=
  (keyedByAddr_iff_spellings { backends := [⟨"10.0.0.1:80".toList, 5⟩, ⟨"[::1]:80".toList, 1⟩] } (by decide)).2
    (by decide)

/-- The compressed and the written-out spelling of one IPv6 address are accepted together. -/
theorem same_addr_accepted :
    let cfg : Config := { backends := [⟨"[::1]:8080".toList, 1⟩, ⟨"[0:0:0:0:0:0:0:1]:8080".toList, 1⟩] }
    cfg.validate = .ok () ∧
      ¬ ∃ p, BackendPool.fromConfig cfg.backends = .ok p ∧ KeyedByAddr cfg.backends p := by
  intro cfg
  refine ⟨by decide, ?_⟩
  rintro ⟨p, -, hp⟩
  exact absurd ((nodup_addrs_iff hp.entries).1 hp.distinct) (by decide)

end Gungho.Pool
