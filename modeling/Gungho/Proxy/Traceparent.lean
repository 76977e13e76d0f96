/-
The trace context a backend receives. `validate_traceparent` accepts exactly the documented grammar,
but looks at the first value only: the trace context passed on is absent or sound unless a well-formed
first `traceparent` is followed by another one.
-/
import Gungho.Proxy.Rewrite

namespace Gungho.Proxy

open Gungho.Lib Gungho.Net

/-! ## The grammar -/

def LowerHex (s : Text) : Prop := ∀ c ∈ s, ('0' ≤ c ∧ c ≤ '9') ∨ ('a' ≤ c ∧ c ≤ 'f')

/-- `00-<trace id>-<parent id>-<flags>`: 32, 16 and 2 lower-case hexadecimal digits, and neither id
all zeros. -/
def WellFormed (t : Text) : Prop :=
  ∃ traceId parentId flags, t = ['-'].intercalate ["00".toList, traceId, parentId, flags] ∧
    (LowerHex traceId ∧ traceId.length = 32 ∧ ∃ c ∈ traceId, c ≠ '0') ∧
    (LowerHex parentId ∧ parentId.length = 16 ∧ ∃ c ∈ parentId, c ≠ '0') ∧ LowerHex flags ∧ flags.length = 2

theorem isHexDigitLowercase_iff (s : Text) : isHexDigitLowercase s = true ↔ LowerHex s := by
  simp [isHexDigitLowercase, LowerHex]

theorem isAllZeros_eq_false_iff (s : Text) : isAllZeros s = false ↔ ∃ c ∈ s, c ≠ '0' := by
  simp [isAllZeros]

theorem dash_not_mem {s : Text} (h : LowerHex s) : '-' ∉ s := fun hm => absurd (h '-' hm) (by decide)

theorem validParts_iff (version traceId parentId flags : Text) :
    validParts [version, traceId, parentId, flags] = true ↔
      version = "00".toList ∧ (LowerHex traceId ∧ traceId.length = 32 ∧ ∃ c ∈ traceId, c ≠ '0') ∧
        (LowerHex parentId ∧ parentId.length = 16 ∧ ∃ c ∈ parentId, c ≠ '0') ∧
        LowerHex flags ∧ flags.length = 2 := by
  simp only [validParts, Bool.and_eq_true, beq_iff_eq, isHexDigitLowercase_iff, Bool.not_eq_true',
    isAllZeros_eq_false_iff]
  tauto

/-- The parts are valid exactly when the text they were split from is well-formed. -/
theorem validParts_splitOn_iff (t : Text) : validParts (t.splitOn '-') = true ↔ WellFormed t := by
  constructor
  · intro h
    have ht : ['-'].intercalate (t.splitOn '-') = t := List.intercalate_splitOn '-'
    generalize t.splitOn '-' = parts at h ht
    unfold validParts at h
    split at h
    · rename_i version traceId parentId flags
      obtain ⟨rfl, hrest⟩ := (validParts_iff version traceId parentId flags).1 h
      exact ⟨traceId, parentId, flags, ht.symm, hrest⟩
    · cases h
  · -- no part contains a dash, so the split gives the parts back
    rintro ⟨traceId, parentId, flags, rfl, hrest⟩
    have hdash : ∀ l ∈ ["00".toList, traceId, parentId, flags], '-' ∉ l := by
      simp only [List.forall_mem_cons, List.not_mem_nil, false_imp_iff, implies_true, and_true]
      exact ⟨by decide, dash_not_mem hrest.1.1, dash_not_mem hrest.2.1.1, dash_not_mem hrest.2.2.1⟩
    rw [List.splitOn_intercalate '-' hdash (by simp)]
    exact (validParts_iff _ _ _ _).2 ⟨rfl, hrest⟩

theorem wellFormed_graphic {t : Text} (h : WellFormed t) : ∀ c ∈ t, Graphic c := by
  obtain ⟨traceId, parentId, flags, rfl, ⟨ht, -⟩, ⟨hp, -⟩, hf, -⟩ := h
  have hhex : ∀ {s : Text}, LowerHex s → ∀ c ∈ s, Graphic c := by
    intro s hs c hc
    have hl : '0'.toNat ≤ c.toNat ∧ c.toNat ≤ '9'.toNat ∨ 'a'.toNat ≤ c.toNat ∧ c.toNat ≤ 'f'.toNat := hs c hc
    have h09 : '0'.toNat = 48 ∧ '9'.toNat = 57 ∧ 'a'.toNat = 97 ∧ 'f'.toNat = 102 := by decide
    unfold Graphic
    omega
  simp only [List.intercalate_cons_cons, List.intercalate_singleton]
  have hdash : ∀ {s t : Text}, (∀ c ∈ s, Graphic c) → (∀ c ∈ t, Graphic c) → ∀ c ∈ s ++ ['-'] ++ t, Graphic c :=
    fun hs ht => forall_append (forall_append hs (graphic_of_all (by decide))) ht
  exact hdash (graphic_of_all (by decide)) (hdash (hhex ht) (hdash (hhex hp) (hhex hf)))

/-! ## Header values -/

theorem toNat_ofNat_byte (b : UInt8) : (Char.ofNat b.toNat).toNat = b.toNat := by
  have h : b.toNat.isValidChar := .inl (by have := b.toNat_lt; omega)
  rw [Char.ofNat, dif_pos h]
  rfl

/-- `to_str` succeeds on a value whose characters are graphic. -/
theorem toStr_graphic {v : HeaderValue} (h : ∀ c ∈ v.text, Graphic c) : v.toStr = some v.text := by
  refine if_pos (List.all_eq_true.2 fun b hb => ?_)
  have hc := h (Char.ofNat b.toNat) (List.mem_map_of_mem hb)
  rw [Graphic, toNat_ofNat_byte] at hc
  have hlow : 32 ≤ b := UInt8.le_iff_toNat_le.2 (show 32 ≤ b.toNat by omega)
  have hup : b < 127 := UInt8.lt_iff_toNat_lt.2 (show b.toNat < 127 by omega)
  simp [HeaderValue.isVisibleAscii, hlow, hup]

/-- The validator accepts a header map exactly when its first `traceparent` is well-formed. -/
theorem validateTraceparent_iff (h : HeaderMap) :
    validateTraceparent h = true ↔ ∃ v, h.get traceparent = some v ∧ WellFormed v.text := by
  unfold validateTraceparent
  rcases hg : h.get traceparent with _ | v
  · simp
  · simp only [Option.some.injEq, exists_eq_left']
    constructor
    · intro hv
      split at hv
      · cases hv
      · rename_i text htext
        have : v.text = text := by
          unfold HeaderValue.toStr at htext
          split at htext <;> cases htext
          rfl
        rw [this]
        exact (validParts_splitOn_iff text).1 hv
    · intro hw
      rw [toStr_graphic (wellFormed_graphic hw)]
      exact (validParts_splitOn_iff _).2 hw

/-! ## The bytes of the value -/

/-- A byte as a character. -/
def byteChar (b : UInt8) : Char := Char.ofNat b.toNat

/-- The digits `0` to `9` and `a` to `f`. -/
def isLowerHexByte (b : UInt8) : Bool := (48 ≤ b && b ≤ 57) || (97 ≤ b && b ≤ 102)

/-- `00-T-P-F` by position: T, P and F are 32, 16 and 2 lower-case hexadecimal digits, and neither T nor
P is all zeros. -/
def TraceBytes (bytes : List UInt8) : Prop :=
  ∃ t p f : List UInt8, bytes = [48, 48, 45] ++ t ++ [45] ++ p ++ [45] ++ f ∧
    (t.length = 32 ∧ t.all isLowerHexByte = true ∧ ∃ b ∈ t, b ≠ 48) ∧
    (p.length = 16 ∧ p.all isLowerHexByte = true ∧ ∃ b ∈ p, b ≠ 48) ∧ f.length = 2 ∧ f.all isLowerHexByte = true

theorem TraceBytes.length {bytes : List UInt8} (h : TraceBytes bytes) : bytes.length = 55 := by
  obtain ⟨t, p, f, rfl, ⟨ht, -⟩, ⟨hp, -⟩, hf, -⟩ := h
  simp only [List.length_append, List.length_cons, List.length_nil, ht, hp, hf]

theorem byteChar_injective : Function.Injective byteChar := by
  intro a b h
  have hn := congrArg Char.toNat h
  rwa [byteChar, byteChar, toNat_ofNat_byte, toNat_ofNat_byte, UInt8.toNat_inj] at hn

theorem byteChar_eq_zero_iff (b : UInt8) : byteChar b = '0' ↔ b = 48 :=
  byteChar_injective.eq_iff' (show byteChar 48 = '0' from rfl)

theorem lowerHex_byteChar (bs : List UInt8) : LowerHex (bs.map byteChar) ↔ bs.all isLowerHexByte = true := by
  have hbyte : ∀ b : UInt8, (('0' ≤ byteChar b ∧ byteChar b ≤ '9') ∨ ('a' ≤ byteChar b ∧ byteChar b ≤ 'f')) ↔
      isLowerHexByte b = true := by
    intro b
    have hle : ∀ c d : Char, c ≤ d ↔ c.toNat ≤ d.toNat := fun _ _ => Iff.rfl
    simp only [hle, byteChar, toNat_ofNat_byte, isLowerHexByte, Bool.or_eq_true, Bool.and_eq_true,
      decide_eq_true_eq, UInt8.le_iff_toNat_le]
    exact Iff.rfl
  unfold LowerHex
  rw [List.all_eq_true]
  constructor
  · exact fun h b hb => (hbyte b).1 (h _ (List.mem_map_of_mem hb))
  · intro h c hc
    obtain ⟨b, hb, rfl⟩ := List.mem_map.1 hc
    exact (hbyte b).2 (h b hb)

theorem nonzero_byteChar (bs : List UInt8) : (∃ c ∈ bs.map byteChar, c ≠ '0') ↔ ∃ b ∈ bs, b ≠ 48 := by
  simp only [List.mem_map, exists_exists_and_eq_and, ne_eq, byteChar_eq_zero_iff]

/-- The text splits into well-formed parts exactly when the bytes do. -/
theorem wellFormed_map_iff (bs : List UInt8) : WellFormed (bs.map byteChar) ↔ TraceBytes bs := by
  have hsep : ∀ t p f : Text, ['-'].intercalate ["00".toList, t, p, f] =
      [48, 48, 45].map byteChar ++ t ++ [45].map byteChar ++ p ++ [45].map byteChar ++ f := fun t p f => by
    simp only [List.intercalate_cons_cons, List.intercalate_singleton, List.append_assoc]
    rfl
  constructor
  · rintro ⟨t, p, f, heq, ⟨ht, htlen, htne⟩, ⟨hp, hplen, hpne⟩, hf, hflen⟩
    rw [hsep] at heq
    obtain ⟨l₁, f, rfl, hl₁, rfl⟩ := List.map_eq_append_iff.1 heq
    obtain ⟨l₂, d₂, rfl, hl₂, hd₂⟩ := List.map_eq_append_iff.1 hl₁
    obtain ⟨l₃, p, rfl, hl₃, rfl⟩ := List.map_eq_append_iff.1 hl₂
    obtain ⟨l₄, d₁, rfl, hl₄, hd₁⟩ := List.map_eq_append_iff.1 hl₃
    obtain ⟨v, t, rfl, hv, rfl⟩ := List.map_eq_append_iff.1 hl₄
    have hinj := List.map_injective_iff.2 byteChar_injective
    rw [hinj hv, hinj hd₁, hinj hd₂]
    refine ⟨t, p, f, rfl, ⟨?_, (lowerHex_byteChar t).1 ht, (nonzero_byteChar t).1 htne⟩,
      ⟨?_, (lowerHex_byteChar p).1 hp, (nonzero_byteChar p).1 hpne⟩, ?_, (lowerHex_byteChar f).1 hf⟩
    · rwa [List.length_map] at htlen
    · rwa [List.length_map] at hplen
    · rwa [List.length_map] at hflen
  · rintro ⟨t, p, f, rfl, ⟨htlen, ht, htne⟩, ⟨hplen, hp, hpne⟩, hflen, hf⟩
    refine ⟨t.map byteChar, p.map byteChar, f.map byteChar, ?_,
      ⟨(lowerHex_byteChar t).2 ht, ?_, (nonzero_byteChar t).2 htne⟩,
      ⟨(lowerHex_byteChar p).2 hp, ?_, (nonzero_byteChar p).2 hpne⟩, (lowerHex_byteChar f).2 hf, ?_⟩
    · rw [hsep]
      simp only [List.map_append]
    all_goals rwa [List.length_map]

/-- The validator accepts a header map exactly when its first `traceparent` is the 55 bytes of the
grammar; without a `traceparent` it rejects. -/
theorem validateTraceparent_bytes_iff (h : HeaderMap) :
    validateTraceparent h = true ↔ ∃ v, h.get traceparent = some v ∧ v.bytes.length = 55 ∧ TraceBytes v.bytes := by
  rw [validateTraceparent_iff]
  refine exists_congr fun v => and_congr_right fun _ => ?_
  constructor
  · intro hw
    have hbytes := (wellFormed_map_iff v.bytes).1 hw
    exact ⟨hbytes.length, hbytes⟩
  · rintro ⟨-, hbytes⟩
    exact (wellFormed_map_iff v.bytes).2 hbytes

/-! ## The result -/

/-- What a backend may receive: no trace context at all, or exactly one `traceparent`, well-formed,
with the `tracestate` and `baggage` of the request. -/
def SoundTraceContext (h h' : HeaderMap) : Prop :=
  (∀ k ∈ otelHeaders, h'.contains k = false) ∨
    (∃ v, h'.getAll traceparent = [v] ∧ WellFormed v.text) ∧ h'.getAll tracestate = h.getAll tracestate ∧
      h'.getAll baggage = h.getAll baggage

/-- The trace context passed on is sound exactly when the request has at most one `traceparent`, or its
first one is not well-formed. -/
theorem soundTraceContext_iff (h : HeaderMap) :
    SoundTraceContext h (propagateOrStripOtelContext h) ↔
      (h.getAll traceparent).length ≤ 1 ∨ ∀ v, h.get traceparent = some v → ¬ WellFormed v.text := by
  by_cases hv : validateTraceparent h = true
  · obtain ⟨v, hget, hw⟩ := (validateTraceparent_iff h).1 hv
    obtain ⟨vs, hall⟩ : ∃ vs, h.getAll traceparent = v :: vs := List.head?_eq_some_iff.1 hget
    have hkeep : propagateOrStripOtelContext h = h := if_pos hv
    rw [hkeep, SoundTraceContext, hall]
    constructor
    -- the map is kept: a second value is kept with the first
    · rintro (hnone | ⟨⟨v', hone, -⟩, -⟩)
      · have := (Multimap.contains_eq_false_iff h traceparent).1 (hnone traceparent (by decide))
        rw [hall] at this
        cases this
      · exact .inl (by rw [hone]; exact Nat.le_refl 1)
    · rintro (hlen | hnot)
      · have hnil : vs = [] := by simpa using hlen
        exact .inr ⟨⟨v, by rw [hnil], hw⟩, rfl, rfl⟩
      · exact absurd hw (hnot v hget)
  · have hstrip : propagateOrStripOtelContext h = stripIncompleteOtelContext h := if_neg hv
    refine iff_of_true (.inl fun k hk => ?_) (.inr fun v hget hw => hv ((validateTraceparent_iff h).2 ⟨v, hget, hw⟩))
    rw [hstrip, Multimap.contains_eq_false_iff, getAll_stripIncompleteOtelContext, if_pos hk]

/-- A well-formed `traceparent` hides the malformed one behind it. -/
theorem malformed_second_traceparent :
    let valid : HeaderValue :=
      .fromStatic "00-abcdef0123456789abcdef0123456789-b9c7c989f97918e1-01".toList (by decide)
    let malformed : HeaderValue := .fromStatic "foobar".toList (by decide)
    let h : HeaderMap := ⟨[(traceparent, valid), (traceparent, malformed)]⟩
    ¬ SoundTraceContext h (propagateOrStripOtelContext h) := by
  intro valid malformed h
  have htwo : ((propagateOrStripOtelContext h).getAll traceparent).length = 2 := by decide
  rintro (hnone | ⟨⟨v, hone, -⟩, -⟩)
  · rw [(Multimap.contains_eq_false_iff _ _).1 (hnone traceparent (by decide))] at htwo
    cases htwo
  · rw [hone] at htwo
    cases htwo

end Gungho.Proxy
