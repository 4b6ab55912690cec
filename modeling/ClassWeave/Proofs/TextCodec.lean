import ClassWeave.Proofs.TextForms
import Mathlib.Logic.Function.Basic

/-!
# Text that is written and read back

Every unit of a text has a form of its own among the bytes, and every character one among the
units, so a text is read back from its bytes whatever it is. Other bytes may spell the same units;
what spells the units of no text is refused with the reason (`Malformed`).
-/

namespace ClassWeave.ModifiedUtf8

variable {s : String} {bytes : List UInt8} {e : FormatError} {b : UInt8}

/-- Why bytes are no text: what they spell breaks off, or half of a pair stands alone in it. -/
inductive Malformed : List UInt8 → FormatError → Prop
  | stops {done rest : List UInt8} {us : List UInt16} {e : FormatError} (hdone : Spells done us)
    (hstops : Stops rest e) : Malformed (done ++ rest) e
  | lone {bytes : List UInt8} {us : List UInt16} (hspells : Spells bytes us)
    (hlone : Utf16.Lone us) : Malformed bytes .loneSurrogate

theorem decode_of_error (h : units bytes = .error e) : decode bytes = .error e := by
  rw [decode, h]
  rfl

theorem decode_of_ok {us : List UInt16} (h : units bytes = .ok us) :
    decode bytes =
      (Utf16.toChars? us).elim (.error .loneSurrogate) fun cs => .ok (String.ofList cs) := by
  simp only [decode, h, bind, Except.bind]
  cases Utf16.toChars? us <;> rfl

/-- Bytes are read as the text whose units they spell. -/
theorem decode_eq_ok_iff :
    decode bytes = .ok s ↔ Spells bytes (s.toList.flatMap Utf16.ofChar) := by
  constructor
  · intro h
    cases hunits : units bytes with
    | error e =>
      rw [decode_of_error hunits] at h
      cases h
    | ok us =>
      rw [decode_of_ok hunits] at h
      cases hchars : Utf16.toChars? us with
      | none =>
        rw [hchars] at h
        cases h
      | some cs =>
        rw [hchars] at h
        obtain rfl := Except.ok.inj h
        rw [String.toList_ofList, ← Utf16.toChars?_eq_some_iff.mp hchars]
        exact units_eq_ok_iff.mp hunits
  · intro h
    rw [decode_of_ok h.units_eq, Utf16.toChars?_eq_some_iff.mpr rfl, Option.elim_some,
      String.ofList_toList]

/-- Bytes are refused for the reason why they are no text. -/
theorem decode_eq_error_iff : decode bytes = .error e ↔ Malformed bytes e := by
  constructor
  · intro h
    cases hunits : units bytes with
    | error e' =>
      rw [decode_of_error hunits] at h
      obtain rfl := Except.error.inj h
      obtain ⟨done, us, rest, hdone, rfl, hstops⟩ := units_eq_error_iff.mp hunits
      exact .stops hdone hstops
    | ok us =>
      rw [decode_of_ok hunits] at h
      cases hchars : Utf16.toChars? us with
      | none =>
        rw [hchars] at h
        obtain rfl := Except.error.inj h
        exact .lone (units_eq_ok_iff.mp hunits) (Utf16.toChars?_eq_none_iff.mp hchars)
      | some cs =>
        rw [hchars] at h
        cases h
  · intro h
    cases h with
    | stops hdone hstops => exact decode_of_error (units_of_stops hdone hstops)
    | lone hspells hlone =>
      rw [decode_of_ok hspells.units_eq, Utf16.toChars?_eq_none_iff.mpr hlone, Option.elim_none]

/-- Half of a pair that stands alone can be spelled, but is no text. -/
example : decode [0xED, 0xA0, 0x80] = .error .loneSurrogate := rfl

theorem encode_eq_flatMap (s : String) :
    encode s = (s.toList.flatMap Utf16.ofChar).flatMap ofUnit := by
  rw [encode, List.flatMap_assoc]
  rfl

/-- **Texts come back from their bytes.** -/
theorem decode_encode (s : String) : decode (encode s) = .ok s := by
  rw [decode_eq_ok_iff, encode_eq_flatMap]
  exact spells_ofUnits _

theorem encode_append (s t : String) : encode (s ++ t) = encode s ++ encode t := by
  rw [encode, String.toList_append, List.flatMap_append]
  rfl

theorem encode_injective : Function.Injective encode := fun s t h => by
  have hs := decode_encode s
  rw [h, decode_encode] at hs
  exact (Except.ok.inj hs).symm

/-- No byte of a unit is zero, and all of them are below `0xF0`. -/
theorem bounds_of_mem_ofUnit {u : UInt16} : ∀ b ∈ ofUnit u, 0 < b.toNat ∧ b.toNat < 0xF0 := by
  have hlt := u.toNat_lt
  unfold ofUnit
  simp only
  split_ifs with hone htwo
  · rw [List.forall_mem_singleton, toNat_ofNat_u8 (by omega)]
    omega
  · rw [List.forall_mem_cons, List.forall_mem_singleton, toNat_ofNat_u8 (by omega),
      toNat_ofNat_u8 (by omega)]
    omega
  · rw [List.forall_mem_cons, List.forall_mem_cons, List.forall_mem_singleton,
      toNat_ofNat_u8 (by omega), toNat_ofNat_u8 (by omega), toNat_ofNat_u8 (by omega)]
    omega

theorem bounds_of_mem_encode (h : b ∈ encode s) : b ≠ 0 ∧ b < 0xF0 := by
  rw [encode_eq_flatMap] at h
  obtain ⟨u, -, hb⟩ := List.mem_flatMap.mp h
  obtain ⟨hpos, hlt⟩ := bounds_of_mem_ofUnit b hb
  refine ⟨?_, UInt8.lt_iff_toNat_lt.mpr hlt⟩
  rintro rfl
  exact Nat.lt_irrefl 0 hpos

/-- **Text and its bytes.** Every text comes back from its bytes, none of which is zero or from
`0xF0` on; the bytes of texts one behind the other are those of each, and no two texts share their
bytes. Whatever bytes there are, they are read as a text if they spell its units, and refused
otherwise: at a byte that begins no unit, at a unit that breaks off, or for half of a pair that
stands alone. -/
theorem text_exact (s t : String) (bytes : List UInt8) :
    decode (encode s) = .ok s ∧
    (∀ b ∈ encode s, b ≠ 0 ∧ b < 0xF0) ∧
    encode (s ++ t) = encode s ++ encode t ∧
    Function.Injective encode ∧
    (∀ r, decode bytes = .ok r ↔ Spells bytes (r.toList.flatMap Utf16.ofChar)) ∧
    ∀ e, decode bytes = .error e ↔ Malformed bytes e :=
  ⟨decode_encode s, fun _ => bounds_of_mem_encode, encode_append s t, encode_injective,
    fun _ => decode_eq_ok_iff, fun _ => decode_eq_error_iff⟩

end ClassWeave.ModifiedUtf8
