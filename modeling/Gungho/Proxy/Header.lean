/-
Header names, values and maps as the `http` crate has them. A name is stored in lower case, a value
is a sequence of bytes without control characters other than the tab, and a header map is a multimap.
-/
import Gungho.Lib.Multimap
import Gungho.Net.Addr

namespace Gungho.Proxy

open Gungho.Lib Gungho.Net

/-! ## Names -/

/-- The characters a header name is stored in: those of a token, letters in lower case. -/
def isNameChar (c : Char) : Bool :=
  c.isLower || c.isDigit || "!#$%&'*+-.^_|~".toList.contains c || c.toNat == 96

def isName (s : Text) : Bool := !s.isEmpty && s.all isNameChar

structure HeaderName where
  text : Text
  valid : isName text = true
  deriving DecidableEq

/-- ASCII lower case. -/
def toLowercase (s : Text) : Text := s.map Char.toLower

/-- The name a `&str` key stands for: names are compared without case. -/
def HeaderName.ofStr (s : Text) (valid : isName (toLowercase s) = true) : HeaderName :=
  ⟨toLowercase s, valid⟩

/-! ## Values -/

/-- What a header value may contain: no control character other than the tab. -/
def isValueByte (b : UInt8) : Bool := (32 ≤ b && b != 127) || b == 9

structure HeaderValue where
  bytes : List UInt8
  valid : bytes.all isValueByte = true
  deriving DecidableEq

namespace HeaderValue

/-- `parse::<HeaderValue>()` of a string. -/
def fromStr (s : Text) : Option HeaderValue :=
  if valid : (s.flatMap String.utf8EncodeChar).all isValueByte = true then some ⟨_, valid⟩ else none

/-- `from_static`. -/
def fromStatic (s : Text) (valid : (s.flatMap String.utf8EncodeChar).all isValueByte = true) : HeaderValue :=
  ⟨_, valid⟩

/-- The bytes as characters, one for each byte. -/
def text (v : HeaderValue) : Text := v.bytes.map fun b => Char.ofNat b.toNat

/-- Visible ASCII, the space and the tab. -/
def isVisibleAscii (b : UInt8) : Bool := (32 ≤ b && b < 127) || b == 9

/-- `to_str`: fails on a byte that is not visible ASCII. -/
def toStr (v : HeaderValue) : Option Text := if v.bytes.all isVisibleAscii then some v.text else none

end HeaderValue

abbrev HeaderMap := Multimap HeaderName HeaderValue

/-! ## Printed values -/

theorem utf8EncodeChar_graphic {c : Char} (h : Graphic c) : String.utf8EncodeChar c = [c.toNat.toUInt8] := by
  have hle : c.toNat ≤ 127 := by have := h.2; omega
  unfold String.utf8EncodeChar
  exact if_pos hle

/-- Graphic ASCII is a header value: the `expect` on an address's text never panics. -/
theorem fromStr_graphic {s : Text} (h : ∀ c ∈ s, Graphic c) : ∃ v, HeaderValue.fromStr s = some v := by
  have hvalid : (s.flatMap String.utf8EncodeChar).all isValueByte = true := by
    rw [List.all_eq_true]
    intro b hb
    obtain ⟨c, hc, hbc⟩ := List.mem_flatMap.1 hb
    rw [utf8EncodeChar_graphic (h c hc), List.mem_singleton] at hbc
    obtain ⟨hl, hu⟩ := h c hc
    have hbn : b.toNat = c.toNat := by
      rw [hbc, Nat.toUInt8, UInt8.toNat_ofNat']
      omega
    have hlow : 32 ≤ b := UInt8.le_iff_toNat_le.2 (show 32 ≤ b.toNat by omega)
    have hdel : b ≠ 127 := fun e => absurd (congrArg UInt8.toNat e) (show b.toNat ≠ 127 by omega)
    simp [isValueByte, hlow, hdel]
  exact ⟨_, dif_pos hvalid⟩

/-- The value that graphic ASCII parses to has its text. -/
theorem text_fromStr {s : Text} (h : ∀ c ∈ s, Graphic c) {v : HeaderValue} (hv : HeaderValue.fromStr s = some v) :
    v.text = s := by
  have hbyte : ∀ c ∈ s, (String.utf8EncodeChar c).map (fun b => Char.ofNat b.toNat) = [c] := by
    intro c hc
    have hlt : c.toNat < 256 := by have := (h c hc).2; omega
    rw [utf8EncodeChar_graphic (h c hc), List.map_singleton, Nat.toUInt8, UInt8.toNat_ofNat', Nat.mod_eq_of_lt hlt,
      Char.ofNat_toNat]
  unfold HeaderValue.fromStr at hv
  split at hv
  · cases hv
    rw [HeaderValue.text, List.map_flatMap, List.flatMap_congr hbyte, List.flatMap_singleton']
  · cases hv

end Gungho.Proxy
