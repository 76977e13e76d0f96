/-
What IP hash can choose. The last two octets shift the hash by every residue modulo 6271, so the
clients of one /16 network, or of one IPv6 /112, reach every index below 6271. The loop stays far
below 2 ^ 32, and the port of a client has no part in it.
-/
import Gungho.Lb.Strategy

namespace Gungho.Lb

open Gungho.Net Gungho.Pool

namespace IpHash

/-! ## The loop -/

/-- The body of the loop on `hash`. -/
def step (hash : Nat) (byte : UInt8) : Nat := (hash * 113 + byte.toNat) % 6271

theorem hashIp_eq (addr : SocketAddr) : hashIp addr = addr.ip.octets.foldl step 89 := rfl

theorem foldl_step_lt (octets : List UInt8) : octets.foldl step 89 < 6271 :=
  List.foldlRecOn (motive := (· < 6271)) octets step (by decide) fun hash _ byte _ =>
    Nat.mod_lt (hash * 113 + byte.toNat) (by decide)

/-- The value before it is reduced, at any octet. -/
theorem intermediate_lt (octets : List UInt8) (byte : UInt8) :
    octets.foldl step 89 * 113 + byte.toNat < 6271 * 113 + 256 := by
  have hhash := foldl_step_lt octets
  have hbyte := byte.toNat_lt
  omega

/-- The body of the loop on a `usize` of `w` bits: `none` where the sum, and with it the product or the
sum alone, overflows. -/
def checkedStep (w hash : Nat) (byte : UInt8) : Option Nat :=
  if hash * 113 + byte.toNat < 2 ^ w then some (step hash byte) else none

def checkedHashIp (w : Nat) (addr : SocketAddr) : Option Nat := addr.ip.octets.foldlM (checkedStep w) 89

/-- The loop does not overflow where the largest intermediate value fits. -/
theorem checkedHashIp_eq {w : Nat} (hw : 6271 * 113 + 256 ≤ 2 ^ w) (addr : SocketAddr) :
    checkedHashIp w addr = some (hashIp addr) := by
  have hloop : ∀ rest done : List UInt8,
      rest.foldlM (checkedStep w) (done.foldl step 89) = some ((done ++ rest).foldl step 89) := by
    intro rest
    induction rest with
    | nil => exact fun done => by rw [List.append_nil]; rfl
    | cons byte rest ih =>
      intro done
      have hstep : checkedStep w (done.foldl step 89) byte = some ((done ++ [byte]).foldl step 89) := by
        rw [List.foldl_append]
        exact if_pos (Nat.lt_of_lt_of_le (intermediate_lt done byte) hw)
      rw [List.foldlM_cons, hstep]
      have hrest := ih (done ++ [byte])
      rwa [List.append_assoc] at hrest
  exact hloop addr.ip.octets []

/-! ## The last two octets -/

/-- From any hash two more octets lead to every residue: they carry `v` below 6271 as `v / 113` and
`v % 113`, and the hash before them is shifted by its multiple of `113 ^ 2`. -/
theorem exists_step_step {hash : Nat} (h : hash < 6271) {i : Nat} (hi : i < 6271) :
    ∃ x y : UInt8, step (step hash x) y = i := by
  obtain ⟨v, hv, hsum⟩ : ∃ v < 6271, (hash * 12769 + v) % 6271 = i :=
    ⟨(i + 12769 * (6271 - hash)) % 6271, Nat.mod_lt _ (by decide), by omega⟩
  have hx : (UInt8.ofNat (v / 113)).toNat = v / 113 := by rw [UInt8.toNat_ofNat']; omega
  have hy : (UInt8.ofNat (v % 113)).toNat = v % 113 := by rw [UInt8.toNat_ofNat']; omega
  refine ⟨UInt8.ofNat (v / 113), UInt8.ofNat (v % 113), ?_⟩
  unfold step
  rw [hx, hy]
  omega

/-- The same address but for the last two octets of the IP: one /16 network, or one /112. -/
def SameNetwork : SocketAddr → SocketAddr → Prop
  | .v4 ip port, .v4 ip' port' => (ip.a = ip'.a ∧ ip.b = ip'.b) ∧ port = port'
  | .v6 ip port flowinfo scopeId, .v6 ip' port' flowinfo' scopeId' =>
    ip.segments.take 7 = ip'.segments.take 7 ∧ port = port' ∧ flowinfo = flowinfo' ∧ scopeId = scopeId'
  | _, _ => False

/-- A segment is its two octets. -/
theorem segment_octets (x y : UInt8) :
    let s := x.toUInt16 * 256 + y.toUInt16
    (s / 256).toUInt8 = x ∧ (s % 256).toUInt8 = y := by
  have hx := x.toNat_lt
  have hy := y.toNat_lt
  have h256 : (256 : UInt16).toNat = 256 := rfl
  have hs : (x.toUInt16 * 256 + y.toUInt16).toNat = x.toNat * 256 + y.toNat := by
    rw [UInt16.toNat_add, UInt16.toNat_mul, UInt8.toNat_toUInt16, UInt8.toNat_toUInt16, h256]
    omega
  constructor
  · apply UInt8.toNat_inj.1
    rw [UInt16.toNat_toUInt8, UInt16.toNat_div, hs, h256]
    omega
  · apply UInt8.toNat_inj.1
    rw [UInt16.toNat_toUInt8, UInt16.toNat_mod, hs, h256]
    omega

/-- The octets of the first seven segments, then those of the last. -/
theorem octets_last (s0 s1 s2 s3 s4 s5 s6 s7 : UInt16) :
    (Ipv6Addr.mk s0 s1 s2 s3 s4 s5 s6 s7).octets =
      ([s0, s1, s2, s3, s4, s5, s6].flatMap fun s => [(s / 256).toUInt8, (s % 256).toUInt8]) ++
        [(s7 / 256).toUInt8, (s7 % 256).toUInt8] := rfl

/-- Every hash is that of an address in the same network. -/
theorem exists_hashIp (addr : SocketAddr) {i : Nat} (hi : i < 6271) :
    ∃ addr', SameNetwork addr addr' ∧ hashIp addr' = i := by
  cases addr with
  | v4 ip port =>
    obtain ⟨x, y, hxy⟩ := exists_step_step (foldl_step_lt [ip.a, ip.b]) hi
    exact ⟨.v4 ⟨ip.a, ip.b, x, y⟩ port, ⟨⟨rfl, rfl⟩, rfl⟩, hxy⟩
  | v6 ip port flowinfo scopeId =>
    obtain ⟨s0, s1, s2, s3, s4, s5, s6, s7⟩ := ip
    obtain ⟨x, y, hxy⟩ := exists_step_step
      (foldl_step_lt ([s0, s1, s2, s3, s4, s5, s6].flatMap fun s => [(s / 256).toUInt8, (s % 256).toUInt8])) hi
    obtain ⟨hx, hy⟩ := segment_octets x y
    refine ⟨.v6 ⟨s0, s1, s2, s3, s4, s5, s6, x.toUInt16 * 256 + y.toUInt16⟩ port flowinfo scopeId,
      ⟨rfl, rfl, rfl, rfl⟩, ?_⟩
    rw [hashIp_eq, SocketAddr.ip, IpAddr.octets, octets_last, hx, hy, List.foldl_append]
    exact hxy

/-! ## The result -/

/-- Every index below 6271 is within reach of the clients of one network; no intermediate value of the
loop overflows 32 bits; and the choice depends on the IP alone. -/
theorem select_reaches (addr : SocketAddr) :
    (∀ backends : List Backend, ∀ i < min backends.length 6271,
        ∃ addr', SameNetwork addr addr' ∧ select backends (some addr') = some i) ∧
      (∀ done byte rest, addr.ip.octets = done ++ byte :: rest →
        done.foldl step 89 * 113 + byte.toNat < 6271 * 113 + 256) ∧
      checkedHashIp 32 addr = some (hashIp addr) ∧
      ∀ addr', addr'.ip = addr.ip → ∀ backends, select backends (some addr') = select backends (some addr) := by
  refine ⟨fun backends i hi => ?_, fun done byte rest _ => intermediate_lt done byte, checkedHashIp_eq (by decide) addr,
    fun addr' hip backends => ?_⟩
  · obtain ⟨hlen, hlt⟩ := Nat.lt_min.1 hi
    obtain ⟨addr', hnet, hhash⟩ := exists_hashIp addr hlt
    refine ⟨addr', hnet, ?_⟩
    have hne : backends.isEmpty = false := by
      rw [List.isEmpty_eq_false_iff]
      rintro rfl
      simp at hlen
    rw [select, hne, if_neg (by decide), Option.elim_some, hhash, Nat.mod_eq_of_lt hlen]
  · have hhash : hashIp addr' = hashIp addr := by rw [hashIp_eq, hashIp_eq, hip]
    simp only [select, Option.elim_some, hhash]

end IpHash

end Gungho.Lb
