import ClassWeave.Proofs.Results
import ClassWeave.Text.ModifiedUtf8

/-!
# Which bytes are text

A unit has a form in one, two or three bytes, the first of which tells how many are to follow, and
more than one form if it is small (`Form`). Bytes are read as units by taking such forms off the
front until none is left or one is broken off (`units_eq_ok_iff`, `units_eq_error_iff`); units are
read as characters unless half of a pair stands alone (`toChars?_eq_some_iff`,
`toChars?_eq_none_iff`).
-/

namespace ClassWeave

namespace Utf16

variable {found cs : List Char} {c : Char} {u v : UInt16} {front us : List UInt16}

/-- The character that units stand for: a unit that is no half, or both halves of a pair. -/
inductive Whole : Char → List UInt16 → Prop
  | plain {u : UInt16} (hhigh : isHigh u = false) (hlow : isLow u = false) :
    Whole (Char.ofNat u.toNat) [u]
  | pair {u v : UInt16} (hhigh : isHigh u = true) (hlow : isLow v = true) :
    Whole (ofPair u v) [u, v]

/-- Half of a pair stands alone: an opening one has no closing one behind it, or a closing one no
opening one in front. -/
def Lone (us : List UInt16) : Prop :=
  ∃ before u after, us = before ++ u :: after ∧
    (isHigh u = true ∧ (∀ v ∈ after.head?, isLow v = false) ∨
      isLow u = true ∧ ∀ v ∈ before.getLast?, isHigh v = false)

theorem isHigh_iff : isHigh u = true ↔ 0xD800 ≤ u.toNat ∧ u.toNat < 0xDC00 := by
  simp [isHigh, UInt16.le_iff_toNat_le, UInt16.lt_iff_toNat_lt]

theorem isLow_iff : isLow u = true ↔ 0xDC00 ≤ u.toNat ∧ u.toNat < 0xE000 := by
  simp [isLow, UInt16.le_iff_toNat_le, UInt16.lt_iff_toNat_lt]

theorem isLow_of_isHigh (h : isHigh u = true) : isLow u = false := by
  rw [Bool.eq_false_iff, Ne, isLow_iff]
  rw [isHigh_iff] at h
  omega

theorem isHigh_of_isLow (h : isLow u = true) : isHigh u = false := by
  rw [Bool.eq_false_iff, Ne, isHigh_iff]
  rw [isLow_iff] at h
  omega

/-! ## Characters of units -/

/-- A character is no half of a pair. -/
theorem toNat_char (c : Char) : c.toNat < 0xD800 ∨ 0xDFFF < c.toNat ∧ c.toNat < 0x110000 :=
  c.valid

theorem toNat_charOfNat {n : Nat} (h : n < 0xD800 ∨ 0xDFFF < n ∧ n < 0x110000) :
    (Char.ofNat n).toNat = n := by
  have hvalid : n.isValidChar := h
  rw [Char.ofNat, dif_pos hvalid]
  rfl

theorem whole_ofChar (c : Char) : Whole c (ofChar c) := by
  have hvalid := toNat_char c
  unfold ofChar
  by_cases hsmall : c.toNat < 0x10000
  · have hunit : (UInt16.ofNat c.toNat).toNat = c.toNat := by
      rw [UInt16.toNat_ofNat', Nat.mod_eq_of_lt hsmall]
    have hwhole : Whole (Char.ofNat (UInt16.ofNat c.toNat).toNat) [UInt16.ofNat c.toNat] := by
      refine .plain ?_ ?_
      · rw [Bool.eq_false_iff, Ne, isHigh_iff, hunit]
        omega
      · rw [Bool.eq_false_iff, Ne, isLow_iff, hunit]
        omega
    rw [hunit, Char.ofNat_toNat] at hwhole
    rwa [if_pos hsmall]
  · -- the two halves together tell how far the character lies above the first 65536
    have hdiv : (c.toNat - 0x10000) / 0x400 < 0x400 := by omega
    have hmod : (c.toNat - 0x10000) % 0x400 < 0x400 := Nat.mod_lt _ (by decide)
    have hsum := Nat.div_add_mod (c.toNat - 0x10000) 0x400
    generalize hi : (c.toNat - 0x10000) / 0x400 = i at *
    generalize hj : (c.toNat - 0x10000) % 0x400 = j at *
    have hfirst : (UInt16.ofNat (0xD800 + i)).toNat = 0xD800 + i := by
      rw [UInt16.toNat_ofNat', Nat.mod_eq_of_lt (by omega)]
    have hsecond : (UInt16.ofNat (0xDC00 + j)).toNat = 0xDC00 + j := by
      rw [UInt16.toNat_ofNat', Nat.mod_eq_of_lt (by omega)]
    have hpair : ofPair (UInt16.ofNat (0xD800 + i)) (UInt16.ofNat (0xDC00 + j)) = c := by
      rw [ofPair, hfirst, hsecond]
      have : 0x10000 + (0xD800 + i - 0xD800) * 0x400 + (0xDC00 + j - 0xDC00) = c.toNat := by
        omega
      rw [this, Char.ofNat_toNat]
    have hwhole : Whole (ofPair (UInt16.ofNat (0xD800 + i)) (UInt16.ofNat (0xDC00 + j)))
        [UInt16.ofNat (0xD800 + i), UInt16.ofNat (0xDC00 + j)] := by
      refine .pair ?_ ?_
      · rw [isHigh_iff, hfirst]
        omega
      · rw [isLow_iff, hsecond]
        omega
    rw [hpair] at hwhole
    simpa only [if_neg hsmall, hi, hj] using hwhole

theorem Whole.eq_ofChar (h : Whole c us) : us = ofChar c := by
  cases h with
  | @plain u hhigh hlow =>
    have hlt := u.toNat_lt
    rw [Bool.eq_false_iff, Ne, isHigh_iff] at hhigh
    rw [Bool.eq_false_iff, Ne, isLow_iff] at hlow
    have hnat : (Char.ofNat u.toNat).toNat = u.toNat := toNat_charOfNat (by omega)
    rw [ofChar, hnat, if_pos hlt, UInt16.ofNat_toNat]
  | @pair u v hhigh hlow =>
    obtain ⟨hu, hu'⟩ := isHigh_iff.mp hhigh
    obtain ⟨hv, hv'⟩ := isLow_iff.mp hlow
    have hnat : (ofPair u v).toNat =
        0x10000 + (u.toNat - 0xD800) * 0x400 + (v.toNat - 0xDC00) := toNat_charOfNat (by omega)
    have hfirst : 0xD800 + ((ofPair u v).toNat - 0x10000) / 0x400 = u.toNat := by omega
    have hsecond : 0xDC00 + ((ofPair u v).toNat - 0x10000) % 0x400 = v.toNat := by omega
    rw [ofChar, if_neg (by omega)]
    simp only [hfirst, hsecond, UInt16.ofNat_toNat]

theorem Whole.toCharsOnto_append (h : Whole c front) :
    toCharsOnto found (front ++ us) = toCharsOnto (c :: found) us := by
  cases h with
  | plain hhigh hlow =>
    rw [List.cons_append, List.nil_append]
    conv_lhs => unfold toCharsOnto
    simp only [hhigh, hlow, Bool.false_eq_true, if_false]
  | pair hhigh hlow =>
    simp only [List.cons_append, List.nil_append, toCharsOnto, hhigh, hlow, if_true]

theorem toCharsOnto_ofChars (cs : List Char) : toCharsOnto found (cs.flatMap ofChar) =
    some (found.reverse ++ cs) := by
  induction cs generalizing found with
  | nil => rw [List.append_nil]; rfl
  | cons c cs ih =>
    rw [List.flatMap_cons, (whole_ofChar c).toCharsOnto_append, ih, List.reverse_cons,
      List.append_assoc]
    rfl

theorem exists_of_toCharsOnto (h : toCharsOnto found us = some cs) :
    ∃ read, cs = found.reverse ++ read ∧ us = read.flatMap ofChar := by
  fun_induction toCharsOnto found us with
  | case1 found => exact ⟨[], by simpa using h.symm, rfl⟩
  | case2 found u hhigh v rest hlow ih =>
    obtain ⟨read, rfl, rfl⟩ := ih h
    exact ⟨ofPair u v :: read, by simp, by simp [← (Whole.pair hhigh hlow).eq_ofChar]⟩
  | case3 | case4 | case5 => cases h
  | case6 found u rest hhigh hlow ih =>
    obtain ⟨read, rfl, rfl⟩ := ih h
    have hwhole := Whole.plain (Bool.eq_false_iff.mpr hhigh) (Bool.eq_false_iff.mpr hlow)
    exact ⟨Char.ofNat u.toNat :: read, by simp, by simp [← hwhole.eq_ofChar]⟩

/-- Units are read as characters if they are those of the characters. -/
theorem toChars?_eq_some_iff : toChars? us = some cs ↔ us = cs.flatMap ofChar := by
  constructor
  · intro h
    obtain ⟨read, rfl, hread⟩ := exists_of_toCharsOnto h
    exact hread
  · rintro rfl
    exact toCharsOnto_ofChars cs

/-! ## Halves that stand alone -/

theorem Whole.isHigh_last (h : Whole c front) : ∀ v ∈ front.getLast?, isHigh v = false := by
  cases h with
  | plain hhigh => simpa using hhigh
  | pair _ hlow => simpa using isHigh_of_isLow hlow

/-- What stands alone behind a character stands alone without it, and the other way round. -/
theorem Whole.lone_append (h : Whole c front) : Lone (front ++ us) ↔ Lone us := by
  constructor
  · -- none of the units of the character stands alone, so the one that does is behind them
    rintro ⟨before, u, after, heq, halone⟩
    cases h with
    | plain hhigh hlow =>
      cases before with
      | nil =>
        obtain ⟨rfl, rfl⟩ := List.cons.inj heq
        simp [hhigh, hlow] at halone
      | cons w before =>
        obtain ⟨rfl, rfl⟩ := List.cons.inj heq
        refine ⟨before, u, after, rfl, halone.imp_right (.imp_right fun hlast v hv => ?_)⟩
        exact hlast v (List.mem_getLast?_cons hv)
    | pair hhigh hlow =>
      match before with
      | [] =>
        obtain ⟨rfl, rfl⟩ := List.cons.inj heq
        simp [hlow, isLow_of_isHigh hhigh] at halone
      | [w] =>
        obtain ⟨rfl, heq'⟩ := List.cons.inj heq
        obtain ⟨rfl, rfl⟩ := List.cons.inj heq'
        simp [hhigh, isHigh_of_isLow hlow] at halone
      | w :: w' :: before =>
        obtain ⟨rfl, heq'⟩ := List.cons.inj heq
        obtain ⟨rfl, rfl⟩ := List.cons.inj heq'
        refine ⟨before, u, after, rfl, halone.imp_right (.imp_right fun hlast v hv => ?_)⟩
        exact hlast v (List.mem_getLast?_cons (List.mem_getLast?_cons hv))
  · rintro ⟨before, u, after, rfl, halone⟩
    refine ⟨front ++ before, u, after, by simp, halone.imp_right (.imp_right fun hlast v hv => ?_)⟩
    rw [List.getLast?_append, Option.mem_def, Option.or_eq_some_iff] at hv
    obtain hv | ⟨-, hv⟩ := hv
    · exact hlast v hv
    · exact h.isHigh_last v hv

/-- Units are not read as characters if half of a pair stands alone. -/
theorem toCharsOnto_eq_none_iff : toCharsOnto found us = none ↔ Lone us := by
  fun_induction toCharsOnto found us with
  | case1 found => simp [Lone]
  | case2 found u hhigh v rest hlow ih =>
    exact ih.trans (Whole.pair hhigh hlow).lone_append.symm
  | case3 found u hhigh v rest hlow =>
    exact iff_of_true rfl ⟨[], u, v :: rest, rfl, .inl ⟨hhigh, by simpa using hlow⟩⟩
  | case4 found u hhigh => exact iff_of_true rfl ⟨[], u, [], rfl, .inl ⟨hhigh, by simp⟩⟩
  | case5 found u rest hhigh hlow =>
    exact iff_of_true rfl ⟨[], u, rest, rfl, .inr ⟨hlow, by simp⟩⟩
  | case6 found u rest hhigh hlow ih =>
    have hwhole := Whole.plain (Bool.eq_false_iff.mpr hhigh) (Bool.eq_false_iff.mpr hlow)
    exact ih.trans hwhole.lone_append.symm

theorem toChars?_eq_none_iff : toChars? us = none ↔ Lone us := toCharsOnto_eq_none_iff

end Utf16

namespace ModifiedUtf8

variable {found us : List UInt16} {u : UInt16} {b : UInt8} {form done rest bytes : List UInt8}
variable {e : FormatError}

/-- The bytes of one unit, of which those behind the first give six bits each. -/
inductive Form : List UInt8 → UInt16 → Prop
  | one {i : Nat} (hi : i < 0x80) : Form [UInt8.ofNat i] (UInt16.ofNat i)
  | two {i j : Nat} (hi : i < 0x20) (hj : j < 0x40) :
    Form [UInt8.ofNat (0xC0 + i), UInt8.ofNat (0x80 + j)] (UInt16.ofNat (i * 0x40 + j))
  | three {i j k : Nat} (hi : i < 0x10) (hj : j < 0x40) (hk : k < 0x40) :
    Form [UInt8.ofNat (0xE0 + i), UInt8.ofNat (0x80 + j), UInt8.ofNat (0x80 + k)]
      (UInt16.ofNat (i * 0x1000 + j * 0x40 + k))

/-- The bytes of a number of units. -/
inductive Spells : List UInt8 → List UInt16 → Prop
  | nil : Spells [] []
  | cons {form rest : List UInt8} {u : UInt16} {us : List UInt16} (hform : Form form u)
    (hrest : Spells rest us) : Spells (form ++ rest) (u :: us)

/-- How many bytes are to follow the first byte of a unit. No unit begins with a byte from `0x80`
to `0xBF` or with one from `0xF0` on. -/
def followers? (b : UInt8) : Option Nat :=
  if b.toNat < 0x80 then some 0
  else if b.toNat < 0xC0 then none
  else if b.toNat < 0xE0 then some 1
  else if b.toNat < 0xF0 then some 2
  else none

/-- No unit is taken off the front: the first byte begins none, or one that is to follow it is
missing or of another kind. -/
inductive Stops : List UInt8 → FormatError → Prop
  | start {b : UInt8} {rest : List UInt8} (h : followers? b = none) :
    Stops (b :: rest) (.badTextByte b)
  | broken {b : UInt8} {rest : List UInt8} {n : Nat} (h : followers? b = some n)
    (hrest : ¬ ∃ next after, rest = next ++ after ∧ next.length = n ∧
      ∀ d ∈ next, isContinuation d = true) : Stops (b :: rest) .truncatedText

theorem toNat_ofNat_u8 {n : Nat} (hn : n < 256) : (UInt8.ofNat n).toNat = n := by
  rw [UInt8.toNat_ofNat', Nat.mod_eq_of_lt hn]

theorem isContinuation_iff : isContinuation b = true ↔ 0x80 ≤ b.toNat ∧ b.toNat < 0xC0 := by
  simp [isContinuation, UInt8.le_iff_toNat_le, UInt8.lt_iff_toNat_lt]

theorem isContinuation_ofNat {n : Nat} (hn : n < 0x40) :
    isContinuation (UInt8.ofNat (0x80 + n)) = true := by
  rw [isContinuation_iff, toNat_ofNat_u8 (by omega)]
  omega

theorem followers?_eq_none_iff :
    followers? b = none ↔ 0x80 ≤ b.toNat ∧ b.toNat < 0xC0 ∨ 0xF0 ≤ b.toNat := by
  unfold followers?
  split_ifs <;> simp <;> omega

theorem followers?_eq_some_iff {n : Nat} : followers? b = some n ↔
    n = 0 ∧ b.toNat < 0x80 ∨ n = 1 ∧ (0xC0 ≤ b.toNat ∧ b.toNat < 0xE0) ∨
      n = 2 ∧ (0xE0 ≤ b.toNat ∧ b.toNat < 0xF0) := by
  unfold followers?
  split_ifs <;> simp <;> omega

/-! ## One unit -/

theorem lt_lead : b < 0x80 ↔ b.toNat < 0x80 := UInt8.lt_iff_toNat_lt

theorem leads_two :
    (decide (0xC0 ≤ b) && decide (b < 0xE0)) = true ↔ 0xC0 ≤ b.toNat ∧ b.toNat < 0xE0 := by
  simp [UInt8.le_iff_toNat_le, UInt8.lt_iff_toNat_lt]

theorem leads_three :
    (decide (0xE0 ≤ b) && decide (b < 0xF0)) = true ↔ 0xE0 ≤ b.toNat ∧ b.toNat < 0xF0 := by
  simp [UInt8.le_iff_toNat_le, UInt8.lt_iff_toNat_lt]

theorem unitsOnto_one (h : b.toNat < 0x80) :
    unitsOnto found (b :: rest) = unitsOnto (b.toUInt16 :: found) rest := by
  conv_lhs => unfold unitsOnto
  rw [if_pos (lt_lead.mpr h)]

theorem unitsOnto_two (h : 0xC0 ≤ b.toNat ∧ b.toNat < 0xE0) :
    unitsOnto found (b :: rest) =
      match rest with
      | b₁ :: rest =>
        if isContinuation b₁ then unitsOnto (unit2 b b₁ :: found) rest
        else .error .truncatedText
      | [] => .error .truncatedText := by
  have hone : ¬ b < 0x80 := mt lt_lead.mp (by omega)
  conv_lhs => unfold unitsOnto
  exact (if_neg hone).trans (if_pos (leads_two.mpr h))

theorem unitsOnto_three (h : 0xE0 ≤ b.toNat ∧ b.toNat < 0xF0) :
    unitsOnto found (b :: rest) =
      match rest with
      | b₁ :: b₂ :: rest =>
        if isContinuation b₁ && isContinuation b₂ then unitsOnto (unit3 b b₁ b₂ :: found) rest
        else .error .truncatedText
      | _ => .error .truncatedText := by
  have hone : ¬ b < 0x80 := mt lt_lead.mp (by omega)
  have htwo := mt (leads_two (b := b)).mp (by omega)
  conv_lhs => unfold unitsOnto
  exact (if_neg hone).trans ((if_neg htwo).trans (if_pos (leads_three.mpr h)))

theorem unitsOnto_none (h : followers? b = none) :
    unitsOnto found (b :: rest) = .error (.badTextByte b) := by
  have hb := followers?_eq_none_iff.mp h
  have hone : ¬ b < 0x80 := mt lt_lead.mp (by omega)
  have htwo := mt (leads_two (b := b)).mp (by omega)
  have hthree := mt (leads_three (b := b)).mp (by omega)
  rw [unitsOnto.eq_def]
  simp only [if_neg hone, if_neg htwo, if_neg hthree]

/-- The first byte tells how many bytes a unit takes. -/
theorem Form.unitsOnto_append (h : Form form u) :
    unitsOnto found (form ++ rest) = unitsOnto (u :: found) rest := by
  cases h with
  | @one i hi =>
    have hbyte : (UInt8.ofNat i).toNat = i := toNat_ofNat_u8 (by omega)
    have hunit : (UInt8.ofNat i).toUInt16 = UInt16.ofNat i := by
      rw [← UInt16.toNat_inj, UInt8.toNat_toUInt16, hbyte, UInt16.toNat_ofNat',
        Nat.mod_eq_of_lt (by omega)]
    rw [List.cons_append, List.nil_append, unitsOnto_one (by omega), hunit]
  | @two i j hi hj =>
    have hfirst : (UInt8.ofNat (0xC0 + i)).toNat = 0xC0 + i := toNat_ofNat_u8 (by omega)
    have hsecond : (UInt8.ofNat (0x80 + j)).toNat = 0x80 + j := toNat_ofNat_u8 (by omega)
    have hdigits : (0xC0 + i) % 0x20 * 0x40 + (0x80 + j) % 0x40 = i * 0x40 + j := by omega
    rw [List.cons_append, List.cons_append, List.nil_append, unitsOnto_two (by omega)]
    simp only [isContinuation_ofNat hj, if_true, unit2, hfirst, hsecond, hdigits]
  | @three i j k hi hj hk =>
    have hfirst : (UInt8.ofNat (0xE0 + i)).toNat = 0xE0 + i := toNat_ofNat_u8 (by omega)
    have hsecond : (UInt8.ofNat (0x80 + j)).toNat = 0x80 + j := toNat_ofNat_u8 (by omega)
    have hthird : (UInt8.ofNat (0x80 + k)).toNat = 0x80 + k := toNat_ofNat_u8 (by omega)
    have hdigits : (0xE0 + i) % 0x10 * 0x1000 + (0x80 + j) % 0x40 * 0x40 + (0x80 + k) % 0x40 =
        i * 0x1000 + j * 0x40 + k := by omega
    rw [List.cons_append, List.cons_append, List.cons_append, List.nil_append,
      unitsOnto_three (by omega)]
    simp only [isContinuation_ofNat hj, isContinuation_ofNat hk, Bool.and_self, if_true, unit3,
      hfirst, hsecond, hthird, hdigits]

theorem form_one (h : b.toNat < 0x80) : Form [b] b.toUInt16 := by
  have hform := Form.one h
  rwa [UInt8.ofNat_toNat, UInt16.ofNat_uInt8ToNat] at hform

theorem exists_continuation (h : isContinuation b = true) :
    ∃ i, i < 0x40 ∧ b.toNat % 0x40 = i ∧ b = UInt8.ofNat (0x80 + i) := by
  obtain ⟨hlow, hhigh⟩ := isContinuation_iff.mp h
  refine ⟨b.toNat - 0x80, by omega, by omega, ?_⟩
  rw [Nat.add_sub_cancel' hlow, UInt8.ofNat_toNat]

theorem form_two {b₁ : UInt8} (h : 0xC0 ≤ b.toNat ∧ b.toNat < 0xE0)
    (h₁ : isContinuation b₁ = true) : Form [b, b₁] (unit2 b b₁) := by
  obtain ⟨j, hj, hmod, hb₁⟩ := exists_continuation h₁
  have hform := Form.two (i := b.toNat - 0xC0) (by omega) hj
  rwa [Nat.add_sub_cancel' h.1, UInt8.ofNat_toNat, ← hb₁, ← hmod,
    show b.toNat - 0xC0 = b.toNat % 0x20 by omega] at hform

theorem form_three {b₁ b₂ : UInt8} (h : 0xE0 ≤ b.toNat ∧ b.toNat < 0xF0)
    (h₁ : isContinuation b₁ = true) (h₂ : isContinuation b₂ = true) :
    Form [b, b₁, b₂] (unit3 b b₁ b₂) := by
  obtain ⟨j, hj, hmod, hb₁⟩ := exists_continuation h₁
  obtain ⟨k, hk, hmod', hb₂⟩ := exists_continuation h₂
  have hform := Form.three (i := b.toNat - 0xE0) (by omega) hj hk
  rwa [Nat.add_sub_cancel' h.1, UInt8.ofNat_toNat, ← hb₁, ← hb₂, ← hmod, ← hmod',
    show b.toNat - 0xE0 = b.toNat % 0x10 by omega] at hform

/-- A unit is written in one of its forms. -/
theorem form_ofUnit (u : UInt16) : Form (ofUnit u) u := by
  have hlt := u.toNat_lt
  have hu : u = UInt16.ofNat u.toNat := UInt16.ofNat_toNat.symm
  unfold ofUnit
  simp only
  split
  · have hform := Form.one (i := u.toNat) (by omega)
    rwa [← hu] at hform
  · split
    · have hform := Form.two (i := u.toNat / 0x40) (j := u.toNat % 0x40) (by omega) (by omega)
      rwa [Nat.div_add_mod', ← hu] at hform
    · have hform := Form.three (i := u.toNat / 0x1000) (j := u.toNat / 0x40 % 0x40)
        (k := u.toNat % 0x40) (by omega) (by omega) (by omega)
      have hdigits : u.toNat / 0x1000 * 0x1000 + u.toNat / 0x40 % 0x40 * 0x40 + u.toNat % 0x40 =
          u.toNat := by omega
      rwa [hdigits, ← hu] at hform

/-- Bytes begin with a unit, or reading stops there. -/
theorem exists_front (b : UInt8) (rest : List UInt8) :
    (∃ form u after, Form form u ∧ b :: rest = form ++ after) ∨ ∃ e, Stops (b :: rest) e := by
  cases hlead : followers? b with
  | none => exact .inr ⟨_, .start hlead⟩
  | some n =>
    -- the bytes that have to follow are there, or reading stops
    by_cases hnext : ∃ next after, rest = next ++ after ∧ next.length = n ∧
        ∀ d ∈ next, isContinuation d = true
    · obtain ⟨next, after, rfl, hlength, hnext⟩ := hnext
      refine .inl ⟨b :: next, ?_⟩
      obtain ⟨rfl, h⟩ | ⟨rfl, h⟩ | ⟨rfl, h⟩ := followers?_eq_some_iff.mp hlead
      · obtain rfl := List.eq_nil_of_length_eq_zero hlength
        exact ⟨_, after, form_one h, rfl⟩
      · obtain ⟨b₁, rfl⟩ := List.length_eq_one_iff.mp hlength
        exact ⟨_, after, form_two h (hnext b₁ (by simp)), rfl⟩
      · obtain ⟨b₁, b₂, rfl⟩ := List.length_eq_two.mp hlength
        exact ⟨_, after, form_three h (hnext b₁ (by simp)) (hnext b₂ (by simp)), rfl⟩
    · exact .inr ⟨_, .broken hlead hnext⟩

theorem Stops.unitsOnto_eq (h : Stops bytes e) : unitsOnto found bytes = .error e := by
  cases h with
  | start h => exact unitsOnto_none h
  | @broken b rest n h hrest =>
    obtain ⟨rfl, -⟩ | ⟨rfl, hb⟩ | ⟨rfl, hb⟩ := followers?_eq_some_iff.mp h
    · exact (hrest ⟨[], rest, rfl, rfl, by simp⟩).elim
    · rw [unitsOnto_two hb]
      split
      · rename_i b₁ after
        exact if_neg fun hb₁ => hrest ⟨[b₁], after, rfl, rfl, by simpa using hb₁⟩
      · rfl
    · rw [unitsOnto_three hb]
      split
      · rename_i b₁ b₂ after
        exact if_neg fun hb => hrest ⟨[b₁, b₂], after, rfl, rfl, by simpa using hb⟩
      · rfl

/-! ## All units -/

theorem spells_ofUnits (us : List UInt16) : Spells (us.flatMap ofUnit) us := by
  induction us with
  | nil => exact .nil
  | cons u us ih => exact .cons (form_ofUnit u) ih

theorem Spells.unitsOnto_append (h : Spells done us) :
    unitsOnto found (done ++ rest) = unitsOnto (us.reverse ++ found) rest := by
  induction h generalizing found with
  | nil => rfl
  | cons hform _ ih =>
    rw [List.append_assoc, hform.unitsOnto_append, ih, List.reverse_cons, List.append_assoc]
    rfl

theorem Spells.units_eq (h : Spells bytes us) : units bytes = .ok us := by
  have hread : unitsOnto [] (bytes ++ []) = unitsOnto (us.reverse ++ []) [] := h.unitsOnto_append
  rwa [List.append_nil, List.append_nil, unitsOnto, List.reverse_reverse] at hread

/-- Bytes spell units up to their end or to where reading stops. -/
theorem spells_or_stops (bytes : List UInt8) : (∃ us, Spells bytes us) ∨
    ∃ done us rest e, Spells done us ∧ bytes = done ++ rest ∧ Stops rest e := by
  -- by length, since a unit takes up to three bytes off the front
  induction hn : bytes.length using Nat.strongRecOn generalizing bytes with
  | ind n ih =>
    cases bytes with
    | nil => exact .inl ⟨[], .nil⟩
    | cons b rest =>
      obtain ⟨form, u, after, hform, heq⟩ | ⟨e, hstops⟩ := exists_front b rest
      · have hshorter : after.length < n := by
          rw [← hn, heq, List.length_append]
          cases hform <;> simp
        obtain ⟨us, hus⟩ | ⟨done, us, tail, e, hdone, rfl, hstops⟩ := ih _ hshorter after rfl
        · exact .inl ⟨u :: us, heq ▸ .cons hform hus⟩
        · refine .inr ⟨form ++ done, u :: us, tail, e, .cons hform hdone, ?_, hstops⟩
          rw [heq, List.append_assoc]
      · exact .inr ⟨[], [], b :: rest, e, .nil, rfl, hstops⟩

theorem units_of_stops (hdone : Spells done us) (hstops : Stops rest e) :
    units (done ++ rest) = .error e := by
  rw [units, hdone.unitsOnto_append, hstops.unitsOnto_eq]

/-- Bytes are read as units if they spell them. -/
theorem units_eq_ok_iff : units bytes = .ok us ↔ Spells bytes us := by
  refine ⟨fun h => ?_, Spells.units_eq⟩
  obtain ⟨us', hus⟩ | ⟨done, us', rest, e, hdone, rfl, hstops⟩ := spells_or_stops bytes
  · obtain rfl := Except.ok.inj (hus.units_eq.symm.trans h)
    exact hus
  · rw [units_of_stops hdone hstops] at h
    cases h

/-- Bytes are refused where reading stops behind the units that they spell. -/
theorem units_eq_error_iff : units bytes = .error e ↔
    ∃ done us rest, Spells done us ∧ bytes = done ++ rest ∧ Stops rest e := by
  constructor
  · intro h
    obtain ⟨us, hus⟩ | ⟨done, us, rest, e', hdone, rfl, hstops⟩ := spells_or_stops bytes
    · rw [hus.units_eq] at h
      cases h
    · rw [units_of_stops hdone hstops] at h
      obtain rfl := Except.error.inj h
      exact ⟨done, us, rest, hdone, rfl, hstops⟩
  · rintro ⟨done, us, rest, hdone, rfl, hstops⟩
    exact units_of_stops hdone hstops

end ModifiedUtf8
end ClassWeave
