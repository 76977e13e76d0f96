/-
The text parser of `std::net::SocketAddr`. Each reader takes the input and returns what it read
with the rest of the input, or `none`, and then nothing is consumed.

One address has several spellings: a port may have leading zeros, IPv6 groups too, zero groups may
be written out or abbreviated by `::`, hexadecimal digits may have either case, the last two groups
may be written as an IPv4 address, and scope id `0` may be left out.
-/
import Gungho.Net.Addr

namespace Gungho.Net

/-- `char::to_digit`. -/
def toDigit (radix : Nat) (c : Char) : Option Nat :=
  let digit :=
    if '0' ≤ c ∧ c ≤ '9' then some (c.toNat - '0'.toNat)
    else if 'a' ≤ c ∧ c ≤ 'z' then some (c.toNat - 'a'.toNat + 10)
    else if 'A' ≤ c ∧ c ≤ 'Z' then some (c.toNat - 'A'.toNat + 10)
    else none
  digit.filter (· < radix)

def readGivenChar (target : Char) : Text → Option Text
  | [] => none
  | c :: rest => if c = target then some rest else none

/-- The digits at the front of the input. -/
def spanDigits (radix : Nat) : Text → List Nat × Text
  | [] => ([], [])
  | c :: rest =>
    match toDigit radix c with
    | some d => (d :: (spanDigits radix rest).1, (spanDigits radix rest).2)
    | none => ([], c :: rest)

/-- `read_number`: at least one digit, at most `maxDigits`, a leading zero only alone unless
allowed, and a value that fits its type. -/
def readNumber (radix : Nat) (maxDigits : Option Nat) (allowZeroPrefix : Bool) (maxValue : Nat) (p : Text) :
    Option (Nat × Text) :=
  let digits := (spanDigits radix p).1
  let value := digits.foldl (fun result digit => result * radix + digit) 0
  if digits = [] then none
  else if maxDigits.any (· < digits.length) then none
  else if allowZeroPrefix = false ∧ digits.head? = some 0 ∧ 1 < digits.length then none
  else if value ≤ maxValue then some (value, (spanDigits radix p).2)
  else none

/-- `read_separator`: the separator comes before every item but the first. -/
def readSeparator {α : Type} (sep : Char) (index : Nat) (inner : Text → Option (α × Text)) (p : Text) :
    Option (α × Text) :=
  if index > 0 then (readGivenChar sep p).bind inner else inner p

def readOctet (index : Nat) (p : Text) : Option (UInt8 × Text) :=
  (readSeparator '.' index (readNumber 10 (some 3) false 255) p).map fun r => (UInt8.ofNat r.1, r.2)

def readIpv4Addr (p : Text) : Option (Ipv4Addr × Text) := do
  let (a, p) ← readOctet 0 p
  let (b, p) ← readOctet 1 p
  let (c, p) ← readOctet 2 p
  let (d, p) ← readOctet 3 p
  return (⟨a, b, c, d⟩, p)

/-- `read_groups`: up to `room` colon-separated groups from index `i` on, and whether the last two
were written as an IPv4 address, which needs room for two. -/
def readGroups : (room i : Nat) → Text → List UInt16 × Bool × Text
  | 0, _, p => ([], false, p)
  | room + 1, i, p =>
    match if 0 < room then readSeparator ':' i readIpv4Addr p else none with
    | some (ipv4, p) =>
      ([ipv4.a.toUInt16 * 256 + ipv4.b.toUInt16, ipv4.c.toUInt16 * 256 + ipv4.d.toUInt16], true, p)
    | none =>
      match readSeparator ':' i (readNumber 16 (some 4) true 0xffff) p with
      | some (group, p) =>
        let (groups, isIpv4, p) := readGroups room (i + 1) p
        (UInt16.ofNat group :: groups, isIpv4, p)
      | none => ([], false, p)

def Ipv6Addr.ofSegments : List UInt16 → Option Ipv6Addr
  | [s0, s1, s2, s3, s4, s5, s6, s7] => some ⟨s0, s1, s2, s3, s4, s5, s6, s7⟩
  | _ => none

/-- `read_ipv6_addr`: eight groups, or fewer around one `::` that stands for at least one zero. -/
def readIpv6Addr (p : Text) : Option (Ipv6Addr × Text) := do
  let (head, headIpv4, p) := readGroups 8 0 p
  if head.length = 8 then
    return (← Ipv6Addr.ofSegments head, p)
  -- an IPv4 part is not allowed before `::`
  if headIpv4 then failure
  let p ← readGivenChar ':' p
  let p ← readGivenChar ':' p
  let (tail, _, p) := readGroups (8 - (head.length + 1)) 0 p
  return (← Ipv6Addr.ofSegments (head ++ List.replicate (8 - head.length - tail.length) 0 ++ tail), p)

def readPort (p : Text) : Option (UInt16 × Text) :=
  (readGivenChar ':' p).bind fun p => (readNumber 10 none true 0xffff p).map fun r => (UInt16.ofNat r.1, r.2)

def readScopeId (p : Text) : Option (UInt32 × Text) :=
  (readGivenChar '%' p).bind fun p => (readNumber 10 none true 0xffffffff p).map fun r => (UInt32.ofNat r.1, r.2)

def readSocketAddrV4 (p : Text) : Option (SocketAddr × Text) := do
  let (ip, p) ← readIpv4Addr p
  let (port, p) ← readPort p
  return (.v4 ip port, p)

def readSocketAddrV6 (p : Text) : Option (SocketAddr × Text) := do
  let p ← readGivenChar '[' p
  let (ip, p) ← readIpv6Addr p
  let (scopeId, p) := (readScopeId p).getD (0, p)
  let p ← readGivenChar ']' p
  let (port, p) ← readPort p
  return (.v6 ip port 0 scopeId, p)

def readSocketAddr (p : Text) : Option (SocketAddr × Text) := (readSocketAddrV4 p).or (readSocketAddrV6 p)

/-- `str::parse::<SocketAddr>`: the whole input is one address. -/
def SocketAddr.parse (s : Text) : Option SocketAddr :=
  match readSocketAddr s with
  | some (addr, []) => some addr
  | _ => none

example : SocketAddr.parse "127.0.0.1:3000".toList = some (.v4 ⟨127, 0, 0, 1⟩ 3000) := by decide
example : SocketAddr.parse "[2001:db8::7ab]:80".toList = SocketAddr.parse "[2001:0DB8:0:0::0:7ab%0]:080".toList := by
  decide
example : SocketAddr.parse "invalid_addr".toList = none := by decide

end Gungho.Net
