/-
Socket addresses as `std::net` has them, and their text: `Display` for `Ipv4Addr`, `Ipv6Addr`,
`IpAddr` and `SocketAddr`. Text is a list of characters.
-/
import Mathlib.Tactic.Common

namespace Gungho.Net

abbrev Text := List Char

/-! ## Addresses -/

structure Ipv4Addr where
  a : UInt8
  b : UInt8
  c : UInt8
  d : UInt8
  deriving DecidableEq, Repr

/-- An IPv6 address by its eight 16-bit segments. -/
structure Ipv6Addr where
  s0 : UInt16
  s1 : UInt16
  s2 : UInt16
  s3 : UInt16
  s4 : UInt16
  s5 : UInt16
  s6 : UInt16
  s7 : UInt16
  deriving DecidableEq, Repr

inductive IpAddr where
  | v4 (ip : Ipv4Addr)
  | v6 (ip : Ipv6Addr)
  deriving DecidableEq, Repr

/-- Equality is that of `std`: every field counts, the flow information and scope id included. -/
inductive SocketAddr where
  | v4 (ip : Ipv4Addr) (port : UInt16)
  | v6 (ip : Ipv6Addr) (port : UInt16) (flowinfo scopeId : UInt32)
  deriving DecidableEq, Repr

def Ipv4Addr.octets (ip : Ipv4Addr) : List UInt8 := [ip.a, ip.b, ip.c, ip.d]

def Ipv6Addr.segments (ip : Ipv6Addr) : List UInt16 :=
  [ip.s0, ip.s1, ip.s2, ip.s3, ip.s4, ip.s5, ip.s6, ip.s7]

/-- The sixteen octets, each segment big-endian. -/
def Ipv6Addr.octets (ip : Ipv6Addr) : List UInt8 :=
  ip.segments.flatMap fun s => [(s / 256).toUInt8, (s % 256).toUInt8]

def IpAddr.octets : IpAddr → List UInt8
  | .v4 ip => ip.octets
  | .v6 ip => ip.octets

def SocketAddr.ip : SocketAddr → IpAddr
  | .v4 ip _ => .v4 ip
  | .v6 ip _ _ _ => .v6 ip

def SocketAddr.port : SocketAddr → UInt16
  | .v4 _ port => port
  | .v6 _ port _ _ => port

/-! ## Display -/

/-- `{}` of an unsigned integer. -/
def decimal (n : Nat) : Text := Nat.toDigits 10 n

/-- `{:x}` of an unsigned integer. -/
def hex (n : Nat) : Text := Nat.toDigits 16 n

def Ipv4Addr.toText (ip : Ipv4Addr) : Text :=
  decimal ip.a.toNat ++ '.' :: decimal ip.b.toNat ++ '.' :: decimal ip.c.toNat ++ '.' :: decimal ip.d.toNat

/-- A run of zero segments. -/
structure Span where
  start : Nat
  len : Nat
  deriving DecidableEq, Repr

/-- The first longest run of zero segments from position `i` on. -/
def longestZeroes : List UInt16 → (i : Nat) → (longest current : Span) → Span
  | [], _, longest, _ => longest
  | s :: ss, i, longest, current =>
    if s = 0 then
      let current := { start := if current.len = 0 then i else current.start, len := current.len + 1 }
      longestZeroes ss (i + 1) (if current.len > longest.len then current else longest) current
    else longestZeroes ss (i + 1) longest ⟨0, 0⟩

/-- Colon-separated hexadecimal segments. -/
def fmtSubslice (chunk : List UInt16) : Text := [':'].intercalate (chunk.map fun s => hex s.toNat)

/-- The IPv4 address of an IPv4-mapped address `::ffff:a.b.c.d`. -/
def Ipv6Addr.toIpv4Mapped (ip : Ipv6Addr) : Option Ipv4Addr :=
  if ip.s0 = 0 ∧ ip.s1 = 0 ∧ ip.s2 = 0 ∧ ip.s3 = 0 ∧ ip.s4 = 0 ∧ ip.s5 = 0xffff then
    some ⟨(ip.s6 / 256).toUInt8, (ip.s6 % 256).toUInt8, (ip.s7 / 256).toUInt8, (ip.s7 % 256).toUInt8⟩
  else none

def Ipv6Addr.toText (ip : Ipv6Addr) : Text :=
  match ip.toIpv4Mapped with
  | some ipv4 => "::ffff:".toList ++ ipv4.toText
  | none =>
    let zeroes := longestZeroes ip.segments 0 ⟨0, 0⟩ ⟨0, 0⟩
    if zeroes.len > 1 then
      fmtSubslice (ip.segments.take zeroes.start) ++ "::".toList ++
        fmtSubslice (ip.segments.drop (zeroes.start + zeroes.len))
    else fmtSubslice ip.segments

def IpAddr.toText : IpAddr → Text
  | .v4 ip => ip.toText
  | .v6 ip => ip.toText

def SocketAddr.toText : SocketAddr → Text
  | .v4 ip port => ip.toText ++ ':' :: decimal port.toNat
  | .v6 ip port _ scopeId =>
    if scopeId = 0 then '[' :: ip.toText ++ "]:".toList ++ decimal port.toNat
    else '[' :: ip.toText ++ '%' :: decimal scopeId.toNat ++ "]:".toList ++ decimal port.toNat

example : (SocketAddr.v6 ⟨0x2001, 0xdb8, 0, 0, 0, 0, 0x1428, 0x7ab⟩ 1234 0 0).toText =
    "[2001:db8::1428:7ab]:1234".toList := by decide

/-! ## The printed characters -/

/-- A printable ASCII character other than the space. -/
def Graphic (c : Char) : Prop := 33 ≤ c.toNat ∧ c.toNat < 127

instance : DecidablePred Graphic := fun c => inferInstanceAs (Decidable (33 ≤ c.toNat ∧ c.toNat < 127))

/-- A text whose characters can be checked one by one. -/
theorem graphic_of_all {s : Text} (h : s.all (Graphic ·) = true) : ∀ c ∈ s, Graphic c := by
  simpa using h

section

variable {P : Char → Prop}

theorem forall_append {s t : Text} (hs : ∀ c ∈ s, P c) (ht : ∀ c ∈ t, P c) : ∀ c ∈ s ++ t, P c :=
  List.forall_mem_append.2 ⟨hs, ht⟩

theorem forall_cons {a : Char} {t : Text} (ha : P a) (ht : ∀ c ∈ t, P c) : ∀ c ∈ a :: t, P c :=
  List.forall_mem_cons.2 ⟨ha, ht⟩

theorem forall_toDigits (hdigit : ∀ n, P (Nat.digitChar n)) (b n : Nat) : ∀ c ∈ Nat.toDigits b n, P c := by
  have hcore : ∀ fuel m ds, (∀ c ∈ ds, P c) → ∀ c ∈ Nat.toDigitsCore b fuel m ds, P c := by
    intro fuel
    induction fuel with
    | zero => intro m ds h; exact h
    | succ fuel ih =>
      intro m ds h
      have h' : ∀ c ∈ Nat.digitChar (m % b) :: ds, P c := forall_cons (hdigit (m % b)) h
      unfold Nat.toDigitsCore
      simp only
      split
      · exact h'
      · exact ih _ _ h'
  exact hcore _ _ _ (by simp)

/-- What holds of every digit and of the separators of an address. -/
structure Printed (P : Char → Prop) : Prop where
  digit : ∀ n, P (Nat.digitChar n)
  dot : P '.'
  colon : P ':'
  bracket : P '[' ∧ P ']'
  percent : P '%'

namespace Printed

variable (hP : Printed P)

include hP

theorem forall_decimal (n : Nat) : ∀ c ∈ decimal n, P c := forall_toDigits hP.digit 10 n

theorem forall_ipv4 (ip : Ipv4Addr) : ∀ c ∈ ip.toText, P c := by
  unfold Ipv4Addr.toText
  simp only [List.append_assoc, List.cons_append]
  iterate 3 refine forall_append (hP.forall_decimal _) (forall_cons hP.dot ?_)
  exact hP.forall_decimal _

theorem forall_fmtSubslice (chunk : List UInt16) : ∀ c ∈ fmtSubslice chunk, P c := by
  unfold fmtSubslice hex
  induction chunk with
  | nil => simp
  | cons s ss ih =>
    cases ss with
    | nil => simpa using forall_toDigits hP.digit 16 s.toNat
    | cons t ts =>
      simp only [List.map_cons] at ih ⊢
      rw [List.intercalate_cons_cons]
      exact forall_append (forall_append (forall_toDigits hP.digit _ _) (forall_cons hP.colon (by simp))) ih

theorem forall_ipv6 (ip : Ipv6Addr) : ∀ c ∈ ip.toText, P c := by
  have hf : P 'f' := hP.digit 15
  unfold Ipv6Addr.toText
  split
  · refine forall_append ?_ (hP.forall_ipv4 _)
    simpa using ⟨hP.colon, hf, hP.colon⟩
  · simp only
    split
    · have hcolons : ∀ c ∈ "::".toList, P c := by simpa using hP.colon
      exact forall_append (forall_append (hP.forall_fmtSubslice _) hcolons) (hP.forall_fmtSubslice _)
    · exact hP.forall_fmtSubslice _

/-- The characters that an IP address prints. -/
theorem forall_ip (ip : IpAddr) : ∀ c ∈ ip.toText, P c := by
  cases ip with
  | v4 ip => exact hP.forall_ipv4 ip
  | v6 ip => exact hP.forall_ipv6 ip

/-- The characters that a socket address prints. -/
theorem forall_addr (addr : SocketAddr) : ∀ c ∈ addr.toText, P c := by
  have hend : ∀ port : UInt16, ∀ c ∈ "]:".toList ++ decimal port.toNat, P c := fun port => by
    refine forall_append ?_ (hP.forall_decimal _)
    simpa using ⟨hP.bracket.2, hP.colon⟩
  cases addr with
  | v4 ip port => exact forall_append (hP.forall_ipv4 ip) (forall_cons hP.colon (hP.forall_decimal _))
  | v6 ip port flowinfo scopeId =>
    simp only [SocketAddr.toText]
    split
    · simp only [List.cons_append, List.append_assoc]
      exact forall_cons hP.bracket.1 (forall_append (hP.forall_ipv6 ip) (hend port))
    · simp only [List.cons_append, List.append_assoc]
      exact forall_cons hP.bracket.1 (forall_append (hP.forall_ipv6 ip)
        (forall_cons hP.percent (forall_append (hP.forall_decimal _) (hend port))))

end Printed

end

theorem ite_mem {p : Prop} [Decidable p] {a b : Char} {s : Text} (ha : a ∈ s) (hb : b ∈ s) :
    (if p then a else b) ∈ s := by
  split
  · exact ha
  · exact hb

/-- The digits, and the character printed for what is no digit. -/
theorem digitChar_mem (n : Nat) : Nat.digitChar n ∈ "0123456789abcdef*".toList := by
  unfold Nat.digitChar
  iterate 16 refine ite_mem (by decide) ?_
  decide

theorem printed_graphic : Printed Graphic :=
  ⟨fun n => graphic_of_all (by decide) _ (digitChar_mem n), by decide, by decide, by decide, by decide⟩

/-- An IP address prints as graphic ASCII. -/
theorem graphic_ip (ip : IpAddr) : ∀ c ∈ ip.toText, Graphic c := printed_graphic.forall_ip ip

/-- A socket address prints as graphic ASCII. -/
theorem graphic_addr (addr : SocketAddr) : ∀ c ∈ addr.toText, Graphic c := printed_graphic.forall_addr addr

end Gungho.Net
