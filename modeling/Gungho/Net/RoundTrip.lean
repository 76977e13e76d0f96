/-
Printing and parsing. The text of an address is parsed back to the address, except that the flow
information of an IPv6 address is not printed. So addresses that came from a text print differently
when they are different: the text is a label for the address.
-/
import Gungho.Net.Parse
import Mathlib.Algebra.Group.Nat.Defs

namespace Gungho.Net

/-! ## Numbers -/

/-- A radix whose digits are read as they are printed. -/
structure Radix (radix : Nat) : Prop where
  one_lt : 1 < radix
  digit : ∀ d < radix, toDigit radix (Nat.digitChar d) = some d

theorem radix_ten : Radix 10 := ⟨by decide, by decide⟩

theorem radix_sixteen : Radix 16 := ⟨by decide, by decide⟩

/-- The text does not go on with a digit. -/
def Stops (radix : Nat) (rest : Text) : Prop := ∀ c, rest.head? = some c → toDigit radix c = none

theorem stops_cons {radix : Nat} {c : Char} {rest : Text} (h : toDigit radix c = none) : Stops radix (c :: rest) := by
  intro d hd
  cases hd
  exact h

theorem stops_nil {radix : Nat} : Stops radix [] := fun _ h => by cases h

theorem spanDigits_stops {radix : Nat} {rest : Text} (h : Stops radix rest) : spanDigits radix rest = ([], rest) := by
  cases rest with
  | nil => rfl
  | cons c rest => simp only [spanDigits, h c rfl]

/-- The digits of a printed number are read, and no more. -/
theorem spanDigits_digits {radix : Nat} (hr : Radix radix) {rest : Text} (hrest : Stops radix rest) {ds : List Nat}
    (hds : ∀ d ∈ ds, d < radix) : spanDigits radix (ds.map Nat.digitChar ++ rest) = (ds, rest) := by
  induction ds with
  | nil => exact spanDigits_stops hrest
  | cons d ds ih =>
    rw [List.map_cons, List.cons_append, spanDigits, hr.digit d (hds d (by simp)),
      ih fun e he => hds e (List.mem_cons_of_mem d he)]

/-- The digits that are printed for a number. A leading zero stands alone. -/
theorem toDigits_digits {radix : Nat} (hr : 1 < radix) (n : Nat) :
    ∃ ds : List Nat, Nat.toDigits radix n = ds.map Nat.digitChar ∧ (∀ d ∈ ds, d < radix) ∧
      ds.foldl (fun result digit => result * radix + digit) 0 = n ∧ (ds.head? = some 0 → ds.length ≤ 1) := by
  induction n using Nat.strongRecOn with
  | _ n ih =>
    by_cases hn : n < radix
    · refine ⟨[n], ?_, by simpa using hn, by simp, fun _ => Nat.le_refl 1⟩
      rw [Nat.toDigits_of_lt_base hn, List.map_singleton]
    · have hpos : 0 < n / radix := Nat.div_pos (by omega) (by omega)
      obtain ⟨ds, hds, hlt, hvalue, hzero⟩ := ih (n / radix) (Nat.div_lt_self (by omega) hr)
      refine ⟨ds ++ [n % radix], ?_, ?_, ?_, fun hhead => ?_⟩
      · rw [Nat.toDigits_of_base_le hr (by omega), hds, List.map_append, List.map_singleton]
      · exact List.forall_mem_append.2 ⟨hlt, by simpa using Nat.mod_lt n (by omega)⟩
      · rw [List.foldl_append, hvalue, List.foldl_cons, List.foldl_nil, Nat.mul_comm]
        exact Nat.div_add_mod n radix
      · -- the digits before the last are those of `n / radix`, which is not 0
        cases ds with
        | nil => simp at hvalue; omega
        | cons d ds =>
          obtain rfl : d = 0 := by simpa using hhead
          have hnil : ds = [] := by simpa using hzero rfl
          subst hnil
          simp at hvalue
          omega

/-- `read_number` on a printed number that fits. -/
theorem readNumber_toDigits {radix : Nat} (hr : Radix radix) {maxDigits : Option Nat} {allowZeroPrefix : Bool}
    {maxValue n : Nat} (hmax : n ≤ maxValue) (hdigits : ∀ k, maxDigits = some k → 0 < k ∧ n < radix ^ k) {rest : Text}
    (hrest : Stops radix rest) :
    readNumber radix maxDigits allowZeroPrefix maxValue (Nat.toDigits radix n ++ rest) = some (n, rest) := by
  obtain ⟨ds, hds, hlt, hvalue, hzero⟩ := toDigits_digits hr.one_lt n
  have hne : ds ≠ [] := by
    rintro rfl
    exact Nat.toDigits_ne_nil hds
  have hlen : maxDigits.any (· < ds.length) = false := by
    rcases maxDigits with _ | k
    · rfl
    · obtain ⟨hk, hpow⟩ := hdigits k rfl
      have hle := (Nat.length_toDigits_le_iff hr.one_lt hk).2 hpow
      rw [hds, List.length_map] at hle
      simpa using hle
  have hlead : ¬(allowZeroPrefix = false ∧ ds.head? = some 0 ∧ 1 < ds.length) := by
    rintro ⟨-, hhead, hlong⟩
    have := hzero hhead
    omega
  rw [hds, readNumber, spanDigits_digits hr hrest hlt]
  simp only [if_neg hne, hlen, Bool.false_eq_true, if_false, if_neg hlead, hvalue, if_pos hmax]

/-! ## IPv4 -/

theorem readGivenChar_self (c : Char) (rest : Text) : readGivenChar c (c :: rest) = some rest := if_pos rfl

theorem readGivenChar_ne {c d : Char} (h : d ≠ c) (rest : Text) : readGivenChar c (d :: rest) = none := if_neg h

/-- An octet as it is printed, after its separator if it is not the first. -/
theorem readOctet_decimal (o : UInt8) {rest : Text} (hrest : Stops 10 rest) (index : Nat) :
    readOctet 0 (decimal o.toNat ++ rest) = some (o, rest) ∧
      readOctet (index + 1) ('.' :: (decimal o.toNat ++ rest)) = some (o, rest) := by
  have ho := o.toNat_lt
  have hnum : readNumber 10 (some 3) false 255 (decimal o.toNat ++ rest) = some (o.toNat, rest) :=
    readNumber_toDigits radix_ten (by omega) (fun k hk => by cases hk; exact ⟨by decide, by omega⟩) hrest
  constructor
  · rw [readOctet, readSeparator, if_neg (by decide), hnum, Option.map_some, UInt8.ofNat_toNat]
  · rw [readOctet, readSeparator, if_pos (by omega), readGivenChar_self, Option.bind_some, hnum, Option.map_some,
      UInt8.ofNat_toNat]

theorem readIpv4Addr_toText (ip : Ipv4Addr) {rest : Text} (hrest : Stops 10 rest) :
    readIpv4Addr (ip.toText ++ rest) = some (ip, rest) := by
  have hdot : ∀ rest, Stops 10 ('.' :: rest) := fun rest => stops_cons (by decide)
  unfold Ipv4Addr.toText readIpv4Addr
  simp only [List.append_assoc, List.cons_append,
    (readOctet_decimal _ (hdot _) 0).1, (readOctet_decimal _ (hdot _) _).2,
    (readOctet_decimal _ hrest _).2, Option.bind_eq_bind, Option.bind_some, Option.pure_def]

theorem readPort_decimal (port : UInt16) : readPort (':' :: decimal port.toNat) = some (port, []) := by
  have hport := port.toNat_lt
  have hnum : readNumber 10 none true 0xffff (decimal port.toNat ++ []) = some (port.toNat, []) :=
    readNumber_toDigits radix_ten (by omega) (fun k hk => by cases hk) stops_nil
  rw [List.append_nil] at hnum
  rw [readPort, readGivenChar_self, Option.bind_some, hnum, Option.map_some, UInt16.ofNat_toNat]

/-! ## IPv6 groups -/

/-- What may follow the groups of an IPv6 address: the end of the address, its scope id or `::`. -/
def EndsGroups (rest : Text) : Prop :=
  ∃ c r, rest = c :: r ∧ (c = ']' ∨ c = '%' ∨ (c = ':' ∧ r.head? = some ':'))

/-- No group is read before a character that neither separates nor is a digit. -/
theorem readSeparator_none {α : Type} {inner : Text → Option (α × Text)} {rest : Text} (h : EndsGroups rest)
    (hinner : ∀ c r, c = ']' ∨ c = '%' ∨ c = ':' → inner (c :: r) = none) (index : Nat) :
    readSeparator ':' index inner rest = none := by
  obtain ⟨c, r, rfl, hc⟩ := h
  unfold readSeparator
  split
  · rcases hc with rfl | rfl | ⟨rfl, hr⟩
    · rw [readGivenChar_ne (by decide)]; rfl
    · rw [readGivenChar_ne (by decide)]; rfl
    · obtain ⟨r, rfl⟩ := List.head?_eq_some_iff.1 hr
      rw [readGivenChar_self, Option.bind_some, hinner ':' r (.inr (.inr rfl))]
  · exact hinner c r (by tauto)

theorem readNumber_none {radix : Nat} {c : Char} (h : toDigit radix c = none) (maxDigits : Option Nat)
    (allowZeroPrefix : Bool) (maxValue : Nat) (rest : Text) :
    readNumber radix maxDigits allowZeroPrefix maxValue (c :: rest) = none := by
  rw [readNumber, spanDigits_stops (stops_cons h)]
  exact if_pos rfl

/-- After the decimal digits at the front the text does not go on with a dot. -/
theorem spanDigits_not_dot {s : Text} (hs : ∀ c ∈ s, c ≠ '.') {c : Char} (hdigit : toDigit 10 c = none) (hc : c ≠ '.')
    (rest : Text) : ∃ d r, (spanDigits 10 (s ++ c :: rest)).2 = d :: r ∧ d ≠ '.' := by
  induction s with
  | nil => exact ⟨c, rest, by rw [List.nil_append, spanDigits_stops (stops_cons hdigit)], hc⟩
  | cons a s ih =>
    rw [List.cons_append, spanDigits]
    split
    · exact ih fun b hb => hs b (List.mem_cons_of_mem a hb)
    · exact ⟨a, _, rfl, hs a (by simp)⟩

theorem readNumber_rest {radix : Nat} {maxDigits : Option Nat} {allowZeroPrefix : Bool} {maxValue : Nat} {p : Text}
    {r : Nat × Text} (h : readNumber radix maxDigits allowZeroPrefix maxValue p = some r) :
    r.2 = (spanDigits radix p).2 := by
  unfold readNumber at h
  simp only at h
  split at h
  · cases h
  split at h
  · cases h
  split at h
  · cases h
  split at h
  · cases h; rfl
  · cases h

/-- A group is no IPv4 address: no dot follows its decimal digits. -/
theorem readIpv4Addr_none {s : Text} (hs : ∀ c ∈ s, c ≠ '.') {c : Char} (hdigit : toDigit 10 c = none) (hc : c ≠ '.')
    (rest : Text) : readIpv4Addr (s ++ c :: rest) = none := by
  obtain ⟨d, r, hspan, hd⟩ := spanDigits_not_dot hs hdigit hc rest
  rcases h0 : readOctet 0 (s ++ c :: rest) with _ | ⟨a, p⟩
  · simp only [readIpv4Addr, h0, Option.bind_eq_bind, Option.bind_none]
  · rw [readOctet, readSeparator, if_neg (by decide), Option.map_eq_some_iff] at h0
    obtain ⟨r0, hnum, hr0⟩ := h0
    have hp : p = d :: r := by
      rw [← hspan, ← readNumber_rest hnum]
      exact (congrArg Prod.snd hr0).symm
    have h0' : readOctet 0 (s ++ c :: rest) = some (a, d :: r) := by
      rw [readOctet, readSeparator, if_neg (by decide), hnum, ← hp, Option.map_some, hr0]
    have h1 : readOctet 1 (d :: r) = none := by
      rw [readOctet, readSeparator, if_pos (by decide), readGivenChar_ne hd]
      rfl
    simp only [readIpv4Addr, h0', h1, Option.bind_eq_bind, Option.bind_some, Option.bind_none]

theorem readGroups_ends {rest : Text} (h : EndsGroups rest) (room index : Nat) :
    readGroups room index rest = ([], false, rest) := by
  have hipv4 : ∀ c r, c = ']' ∨ c = '%' ∨ c = ':' → readIpv4Addr (c :: r) = none := by
    rintro c r (rfl | rfl | rfl) <;> exact readIpv4Addr_none (s := []) (by simp) (by decide) (by decide) r
  have hgroup : ∀ c r, c = ']' ∨ c = '%' ∨ c = ':' → readNumber 16 (some 4) true 0xffff (c :: r) = none := by
    rintro c r (rfl | rfl | rfl) <;> exact readNumber_none (by decide) _ _ _ r
  cases room with
  | zero => rfl
  | succ room =>
    rw [readGroups, readSeparator_none h hipv4, readSeparator_none h hgroup]
    simp

/-- Groups that follow another group. -/
def colonGroups (groups : List UInt16) : Text := groups.flatMap fun s => ':' :: hex s.toNat

theorem fmtSubslice_cons (s : UInt16) (groups : List UInt16) :
    fmtSubslice (s :: groups) = hex s.toNat ++ colonGroups groups := by
  unfold fmtSubslice
  induction groups generalizing s with
  | nil => simp [colonGroups]
  | cons t groups ih =>
    have hrest := ih t
    rw [List.map_cons] at hrest
    rw [List.map_cons, List.map_cons, List.intercalate_cons_cons, hrest]
    simp [colonGroups]

/-- What follows a printed group is no digit and no dot. -/
theorem colonGroups_head (groups : List UInt16) {rest : Text} (h : EndsGroups rest) :
    ∃ c r, colonGroups groups ++ rest = c :: r ∧ toDigit 10 c = none ∧ toDigit 16 c = none ∧ c ≠ '.' := by
  cases groups with
  | nil =>
    obtain ⟨c, r, rfl, hc⟩ := h
    refine ⟨c, r, rfl, ?_⟩
    rcases hc with rfl | rfl | ⟨rfl, -⟩ <;> decide
  | cons s groups => exact ⟨':', _, rfl, by decide, by decide, by decide⟩

theorem hex_ne_dot (n : Nat) : ∀ c ∈ hex n, c ≠ '.' := by
  have hdigits : '.' ∉ "0123456789abcdef*".toList := by decide
  exact forall_toDigits (P := (· ≠ '.')) (fun n h => hdigits (h ▸ digitChar_mem n)) 16 n

/-- One printed group, and the groups after it. -/
theorem readGroups_hex (room index : Nat) (s : UInt16) {p q : Text} {c : Char} (h10 : toDigit 10 c = none)
    (h16 : toDigit 16 c = none) (hdot : c ≠ '.')
    (hp : ∀ {α : Type} (inner : Text → Option (α × Text)),
      readSeparator ':' index inner p = inner (hex s.toNat ++ c :: q)) :
    readGroups (room + 1) index p =
      (s :: (readGroups room (index + 1) (c :: q)).1, (readGroups room (index + 1) (c :: q)).2) := by
  have hs := s.toNat_lt
  have hipv4 : readIpv4Addr (hex s.toNat ++ c :: q) = none := readIpv4Addr_none (hex_ne_dot _) h10 hdot q
  have hgroup : readNumber 16 (some 4) true 0xffff (hex s.toNat ++ c :: q) = some (s.toNat, c :: q) :=
    readNumber_toDigits radix_sixteen (by omega) (fun k hk => by cases hk; exact ⟨by decide, by omega⟩) (stops_cons h16)
  rw [readGroups, hp, hp, hipv4, hgroup]
  simp only [ite_self, UInt16.ofNat_toNat]

theorem readGroups_colonGroups {rest : Text} (hrest : EndsGroups rest) (groups : List UInt16) :
    ∀ room index, groups.length ≤ room →
      readGroups room (index + 1) (colonGroups groups ++ rest) = (groups, false, rest) := by
  induction groups with
  | nil => exact fun room index _ => readGroups_ends hrest room (index + 1)
  | cons s groups ih =>
    intro room index hlen
    obtain ⟨room, rfl⟩ : ∃ r, room = r + 1 := ⟨room - 1, by rw [List.length_cons] at hlen; omega⟩
    obtain ⟨c, q, heq, h10, h16, hdot⟩ := colonGroups_head groups hrest
    have hp : ∀ {α : Type} (inner : Text → Option (α × Text)),
        readSeparator ':' (index + 1) inner (colonGroups (s :: groups) ++ rest) = inner (hex s.toNat ++ c :: q) := by
      intro α inner
      rw [← heq]
      simp only [colonGroups, List.flatMap_cons, List.cons_append, List.append_assoc, readSeparator,
        if_pos (Nat.succ_pos index), readGivenChar_self, Option.bind_some]
    rw [readGroups_hex room (index + 1) s h10 h16 hdot hp, ← heq, ih room (index + 1) (by simpa using hlen)]

/-- The groups on one side of `::`, or all eight. -/
theorem readGroups_fmtSubslice {rest : Text} (hrest : EndsGroups rest) {groups : List UInt16} {room : Nat}
    (hlen : groups.length ≤ room) : readGroups room 0 (fmtSubslice groups ++ rest) = (groups, false, rest) := by
  cases groups with
  | nil => exact readGroups_ends hrest room 0
  | cons s groups =>
    obtain ⟨room, rfl⟩ : ∃ r, room = r + 1 := ⟨room - 1, by rw [List.length_cons] at hlen; omega⟩
    obtain ⟨c, q, heq, h10, h16, hdot⟩ := colonGroups_head groups hrest
    have hp : ∀ {α : Type} (inner : Text → Option (α × Text)),
        readSeparator ':' 0 inner (fmtSubslice (s :: groups) ++ rest) = inner (hex s.toNat ++ c :: q) := by
      intro α inner
      rw [fmtSubslice_cons, List.append_assoc, heq]
      exact if_neg (by decide)
    rw [readGroups_hex room 0 s h10 h16 hdot hp, ← heq,
      readGroups_colonGroups hrest groups room 0 (by simpa using hlen)]

/-! ## The longest run of zeros -/

/-- The segments of the span are zeros. -/
def Zeros (segments : List UInt16) (z : Span) : Prop :=
  segments = segments.take z.start ++ List.replicate z.len 0 ++ segments.drop (z.start + z.len)

theorem zeros_of_split {pre post : List UInt16} {z : Span} (hstart : z.start = pre.length) :
    Zeros (pre ++ List.replicate z.len 0 ++ post) z := by
  have hdrop : z.start + z.len = (pre ++ List.replicate z.len 0).length := by
    rw [List.length_append, List.length_replicate, hstart]
  rw [Zeros, hdrop, List.drop_left, hstart, List.append_assoc, List.take_left, List.append_assoc]

theorem longestZeroes_zeros {segments : List UInt16} (rest : List UInt16) :
    ∀ (pre : List UInt16) (longest current : Span), segments = pre ++ List.replicate current.len 0 ++ rest →
      (current.len ≠ 0 → current.start = pre.length) → Zeros segments longest →
      Zeros segments (longestZeroes rest (pre.length + current.len) longest current) := by
  induction rest with
  | nil => exact fun _ _ _ _ _ h => h
  | cons s rest ih =>
    intro pre longest current hsplit hstart hlongest
    rw [longestZeroes]
    split
    · rename_i hs
      subst hs
      -- the current run grows by this zero
      have hgrown : segments = pre ++ List.replicate (current.len + 1) 0 ++ rest := by
        rw [hsplit, List.replicate_succ']
        simp only [List.append_assoc, List.singleton_append]
      have hpos : (if current.len = 0 then pre.length + current.len else current.start) = pre.length := by
        split
        · omega
        · exact hstart ‹_›
      rw [hpos, Nat.add_assoc]
      refine ih pre _ ⟨pre.length, current.len + 1⟩ hgrown (fun _ => rfl) ?_
      split
      · rw [hgrown]
        exact zeros_of_split (z := ⟨pre.length, current.len + 1⟩) rfl
      · exact hlongest
    · have hnext := ih (pre ++ List.replicate current.len 0 ++ [s]) longest ⟨0, 0⟩
        (by rw [hsplit]; simp only [List.replicate_zero, List.append_nil, List.append_assoc, List.singleton_append])
        (fun h => absurd rfl h) hlongest
      simpa only [List.length_append, List.length_replicate, List.length_singleton, Nat.add_zero] using hnext

/-! ## IPv6 -/

theorem readIpv6Addr_full {p rest : Text} {groups : List UInt16} (h : readGroups 8 0 p = (groups, false, rest))
    (hlen : groups.length = 8) : readIpv6Addr p = (Ipv6Addr.ofSegments groups).map (·, rest) := by
  rw [readIpv6Addr, h]
  simp only [if_pos hlen]
  cases Ipv6Addr.ofSegments groups <;> rfl

theorem readIpv6Addr_gap {p q rest : Text} {head tail : List UInt16} {isIpv4 : Bool}
    (hhead : readGroups 8 0 p = (head, false, ':' :: ':' :: q)) (hlen : head.length ≠ 8)
    (htail : readGroups (8 - (head.length + 1)) 0 q = (tail, isIpv4, rest)) :
    readIpv6Addr p =
      (Ipv6Addr.ofSegments (head ++ List.replicate (8 - head.length - tail.length) 0 ++ tail)).map (·, rest) := by
  rw [readIpv6Addr, hhead]
  simp only [if_neg hlen, Bool.false_eq_true, if_false, readGivenChar_self, Option.bind_eq_bind, Option.bind_some,
    htail]
  cases Ipv6Addr.ofSegments (head ++ List.replicate (8 - head.length - tail.length) 0 ++ tail) <;> rfl

theorem ofSegments_segments (ip : Ipv6Addr) : Ipv6Addr.ofSegments ip.segments = some ip := rfl

/-- A segment of an IPv4-mapped address is its two octets. -/
theorem octets_segment (s : UInt16) : (s / 256).toUInt8.toUInt16 * 256 + (s % 256).toUInt8.toUInt16 = s := by
  have hs := s.toNat_lt
  have h256 : (256 : UInt16).toNat = 256 := rfl
  apply UInt16.toNat_inj.1
  rw [UInt16.toNat_add, UInt16.toNat_mul, UInt8.toNat_toUInt16, UInt8.toNat_toUInt16, UInt16.toNat_toUInt8,
    UInt16.toNat_toUInt8, UInt16.toNat_div, UInt16.toNat_mod, h256]
  omega

/-- The mapped IPv4 address is read as the last two groups. -/
theorem readIpv6Addr_mapped {ip : Ipv6Addr} {ipv4 : Ipv4Addr} (h : ip.toIpv4Mapped = some ipv4) {rest : Text}
    (hrest : Stops 10 rest) : readIpv6Addr ("::ffff:".toList ++ ipv4.toText ++ rest) = some (ip, rest) := by
  have hmapped : "::ffff:".toList ++ ipv4.toText ++ rest =
      ':' :: ':' :: (hex (0xffff : UInt16).toNat ++ ':' :: (ipv4.toText ++ rest)) := by
    simp only [List.append_assoc]
    rfl
  have hhead : readGroups 8 0 (':' :: ':' :: (hex (0xffff : UInt16).toNat ++ ':' :: (ipv4.toText ++ rest))) =
      ([], false, ':' :: ':' :: (hex (0xffff : UInt16).toNat ++ ':' :: (ipv4.toText ++ rest))) :=
    readGroups_ends ⟨':', _, rfl, .inr (.inr ⟨rfl, rfl⟩)⟩ 8 0
  have hlast : readGroups 6 1 (':' :: (ipv4.toText ++ rest)) =
      ([ipv4.a.toUInt16 * 256 + ipv4.b.toUInt16, ipv4.c.toUInt16 * 256 + ipv4.d.toUInt16], true, rest) := by
    rw [readGroups, if_pos (by decide), readSeparator, if_pos (by decide), readGivenChar_self, Option.bind_some,
      readIpv4Addr_toText ipv4 hrest]
  have htail := readGroups_hex 6 0 0xffff (p := hex (0xffff : UInt16).toNat ++ ':' :: (ipv4.toText ++ rest))
    (q := ipv4.toText ++ rest) (c := ':') (by decide) (by decide) (by decide) fun _ => if_neg (by decide)
  rw [hlast] at htail
  rw [hmapped, readIpv6Addr_gap hhead (by decide) htail]
  unfold Ipv6Addr.toIpv4Mapped at h
  split at h
  · rename_i hzero
    obtain ⟨s0, s1, s2, s3, s4, s5, s6, s7⟩ := ip
    obtain ⟨rfl, rfl, rfl, rfl, rfl, rfl⟩ := hzero
    cases h
    rw [octets_segment, octets_segment]
    rfl
  · cases h

/-- What follows a printed IPv6 address: its scope id or the closing bracket. -/
def AfterIpv6 (rest : Text) : Prop := ∃ c r, rest = c :: r ∧ (c = ']' ∨ c = '%')

theorem readIpv6Addr_toText (ip : Ipv6Addr) {rest : Text} (hrest : AfterIpv6 rest) :
    readIpv6Addr (ip.toText ++ rest) = some (ip, rest) := by
  obtain ⟨c, r, hcr, hc⟩ := hrest
  have hends : EndsGroups rest := ⟨c, r, hcr, hc.elim .inl fun h => .inr (.inl h)⟩
  have hstops : Stops 10 rest := by
    rw [hcr]
    refine stops_cons ?_
    rcases hc with rfl | rfl <;> decide
  have hlen : ip.segments.length = 8 := rfl
  unfold Ipv6Addr.toText
  split
  · rename_i ipv4 hmapped
    exact readIpv6Addr_mapped hmapped hstops
  · simp only
    split
    · rename_i hgap
      have hzeros : Zeros ip.segments (longestZeroes ip.segments 0 ⟨0, 0⟩ ⟨0, 0⟩) :=
        longestZeroes_zeros ip.segments [] ⟨0, 0⟩ ⟨0, 0⟩ rfl (fun h => absurd rfl h) rfl
      generalize longestZeroes ip.segments 0 ⟨0, 0⟩ ⟨0, 0⟩ = z at hgap hzeros
      have hcount := congrArg List.length hzeros
      simp only [List.length_append, List.length_take, List.length_drop, List.length_replicate, hlen] at hcount
      have hhead : (ip.segments.take z.start).length = z.start := by rw [List.length_take, hlen]; omega
      have htail : (ip.segments.drop (z.start + z.len)).length = 8 - (z.start + z.len) := by rw [List.length_drop, hlen]
      have hcolons : fmtSubslice (ip.segments.take z.start) ++ "::".toList ++
          fmtSubslice (ip.segments.drop (z.start + z.len)) ++ rest =
          fmtSubslice (ip.segments.take z.start) ++
            ':' :: ':' :: (fmtSubslice (ip.segments.drop (z.start + z.len)) ++ rest) := by
        simp only [List.append_assoc]
        rfl
      rw [hcolons, readIpv6Addr_gap
        (readGroups_fmtSubslice ⟨':', _, rfl, .inr (.inr ⟨rfl, rfl⟩)⟩ (by omega)) (by omega)
        (readGroups_fmtSubslice hends (by omega))]
      have hmiddle : 8 - (ip.segments.take z.start).length - (ip.segments.drop (z.start + z.len)).length = z.len := by
        omega
      rw [hmiddle, ← hzeros, ofSegments_segments, Option.map_some]
    · rw [readIpv6Addr_full (readGroups_fmtSubslice hends (Nat.le_of_eq hlen)) hlen, ofSegments_segments,
        Option.map_some]

/-! ## Socket addresses -/

/-- The address without what its text leaves out. -/
def SocketAddr.printed : SocketAddr → SocketAddr
  | .v4 ip port => .v4 ip port
  | .v6 ip port _ scopeId => .v6 ip port 0 scopeId

theorem parse_v6 (ip : Ipv6Addr) (port : UInt16) (scopeId : UInt32) (flowinfo : UInt32) :
    SocketAddr.parse (SocketAddr.v6 ip port flowinfo scopeId).toText = some (.v6 ip port 0 scopeId) := by
  have hend : ∀ p : Text, "]:".toList ++ p = ']' :: ':' :: p := fun _ => rfl
  have hv4 : ∀ p, readSocketAddrV4 ('[' :: p) = none := fun p => by
    have hip : readIpv4Addr ('[' :: p) = none := readIpv4Addr_none (s := []) (by simp) (by decide) (by decide) p
    simp only [readSocketAddrV4, hip, Option.bind_eq_bind, Option.bind_none]
  have hscope := scopeId.toNat_lt
  unfold SocketAddr.parse readSocketAddr SocketAddr.toText
  by_cases hzero : scopeId = 0
  · subst hzero
    have hip : readIpv6Addr (ip.toText ++ ']' :: ':' :: decimal port.toNat) =
        some (ip, ']' :: ':' :: decimal port.toNat) :=
      readIpv6Addr_toText ip ⟨']', _, rfl, .inl rfl⟩
    have hnone : readScopeId (']' :: ':' :: decimal port.toNat) = none := by
      rw [readScopeId, readGivenChar_ne (by decide)]; rfl
    simp only [if_true, List.cons_append, List.append_assoc, hend, hv4, Option.none_or, readSocketAddrV6,
      readGivenChar_self, Option.bind_eq_bind, Option.bind_some, hip, hnone, Option.getD_none, readPort_decimal,
      Option.pure_def]
  · have hip : readIpv6Addr (ip.toText ++ '%' :: (decimal scopeId.toNat ++ ']' :: ':' :: decimal port.toNat)) =
        some (ip, '%' :: (decimal scopeId.toNat ++ ']' :: ':' :: decimal port.toNat)) :=
      readIpv6Addr_toText ip ⟨'%', _, rfl, .inr rfl⟩
    have hnum : readNumber 10 none true 0xffffffff (decimal scopeId.toNat ++ ']' :: ':' :: decimal port.toNat) =
        some (scopeId.toNat, ']' :: ':' :: decimal port.toNat) :=
      readNumber_toDigits radix_ten (by omega) (fun k hk => by cases hk) (stops_cons (by decide))
    have hsome : readScopeId ('%' :: (decimal scopeId.toNat ++ ']' :: ':' :: decimal port.toNat)) =
        some (scopeId, ']' :: ':' :: decimal port.toNat) := by
      rw [readScopeId, readGivenChar_self, Option.bind_some, hnum, Option.map_some, UInt32.ofNat_toNat]
    simp only [if_neg hzero, List.cons_append, List.append_assoc, hend, hv4, Option.none_or, readSocketAddrV6,
      readGivenChar_self, Option.bind_eq_bind, Option.bind_some, hip, hsome, Option.getD_some, readPort_decimal,
      Option.pure_def]

/-- The text of an address is parsed back to the address without its flow information. -/
theorem parse_toText (addr : SocketAddr) : SocketAddr.parse addr.toText = some addr.printed := by
  cases addr with
  | v4 ip port =>
    have hip : readIpv4Addr (ip.toText ++ ':' :: decimal port.toNat) = some (ip, ':' :: decimal port.toNat) :=
      readIpv4Addr_toText ip (stops_cons (by decide))
    simp only [SocketAddr.parse, readSocketAddr, SocketAddr.toText, readSocketAddrV4, hip, Option.bind_eq_bind,
      Option.bind_some, readPort_decimal, Option.pure_def, Option.some_or, SocketAddr.printed]
  | v6 ip port flowinfo scopeId => exact parse_v6 ip port scopeId flowinfo

/-- A parsed address has no flow information. -/
theorem printed_of_parse {s : Text} {addr : SocketAddr} (h : SocketAddr.parse s = some addr) : addr.printed = addr := by
  unfold SocketAddr.parse at h
  split at h
  · rename_i a hread
    cases h
    rcases Option.or_eq_some_iff.1 hread with hv4 | ⟨-, hv6⟩
    · simp only [readSocketAddrV4, Option.bind_eq_bind, Option.bind_eq_some_iff, Option.pure_def, Option.some.injEq,
        Prod.mk.injEq] at hv4
      obtain ⟨_, -, _, -, rfl, -⟩ := hv4
      rfl
    · simp only [readSocketAddrV6, Option.bind_eq_bind, Option.bind_eq_some_iff, Option.pure_def, Option.some.injEq,
        Prod.mk.injEq] at hv6
      obtain ⟨_, -, _, -, _, -, _, -, rfl, -⟩ := hv6
      rfl
  · cases h

/-- Parsed addresses with the same text are the same. -/
theorem toText_injOn_parsed {s t : Text} {a b : SocketAddr} (ha : SocketAddr.parse s = some a)
    (hb : SocketAddr.parse t = some b) (h : a.toText = b.toText) : a = b := by
  have hparse : some a.printed = some b.printed := by rw [← parse_toText, ← parse_toText, h]
  rw [printed_of_parse ha, printed_of_parse hb] at hparse
  exact Option.some.inj hparse

end Gungho.Net
