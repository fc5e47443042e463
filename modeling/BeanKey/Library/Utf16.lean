import Mathlib.Data.List.Basic
import Mathlib.Data.List.Infix

/-! UTF-16: a scalar is one code unit, or a high surrogate and a low one. -/
namespace Utf16

abbrev Units := List UInt16

def isHigh (unit : UInt16) : Bool := 0xD800 ≤ unit.toNat && unit.toNat ≤ 0xDBFF

def isLow (unit : UInt16) : Bool := 0xDC00 ≤ unit.toNat && unit.toNat ≤ 0xDFFF

def encodeScalar (scalar : Char) : Units :=
  if scalar.toNat < 0x10000 then [UInt16.ofNat scalar.toNat]
  else
    [UInt16.ofNat (0xD800 + (scalar.toNat - 0x10000) / 0x400),
      UInt16.ofNat (0xDC00 + (scalar.toNat - 0x10000) % 0x400)]

def encode (scalars : List Char) : Units := scalars.flatMap encodeScalar

theorem isHigh_iff {unit : UInt16} :
    isHigh unit = true ↔ 0xD800 ≤ unit.toNat ∧ unit.toNat ≤ 0xDBFF := by
  simp [isHigh]

theorem isLow_iff {unit : UInt16} :
    isLow unit = true ↔ 0xDC00 ≤ unit.toNat ∧ unit.toNat ≤ 0xDFFF := by
  simp [isLow]

theorem not_low_of_high {unit : UInt16} (h : isHigh unit = true) : isLow unit = false := by
  rw [isHigh_iff] at h
  simp only [isLow, Bool.and_eq_false_iff, decide_eq_false_iff_not]
  omega

theorem not_high_of_low {unit : UInt16} (h : isLow unit = true) : isHigh unit = false := by
  rw [isLow_iff] at h
  simp only [isHigh, Bool.and_eq_false_iff, decide_eq_false_iff_not]
  omega

@[simp] theorem encode_nil : encode [] = [] := rfl

@[simp] theorem encode_cons (scalar : Char) (scalars : List Char) :
    encode (scalar :: scalars) = encodeScalar scalar ++ encode scalars := rfl

theorem toNat_scalar (scalar : Char) :
    scalar.toNat < 0xD800 ∨ 0xDFFF < scalar.toNat ∧ scalar.toNat < 0x110000 :=
  scalar.valid

theorem toNat_ofNat {value : Nat} (h : value.isValidChar) : (Char.ofNat value).toNat = value := by
  rw [Char.ofNat, dif_pos h]
  rfl

theorem encodeScalar_cases (scalar : Char) :
    (∃ unit, encodeScalar scalar = [unit] ∧ isHigh unit = false ∧ isLow unit = false) ∨
    ∃ high low, encodeScalar scalar = [high, low] ∧ isHigh high = true ∧ isLow low = true := by
  have hvalid := toNat_scalar scalar
  by_cases hsmall : scalar.toNat < 0x10000
  · have hunit : (UInt16.ofNat scalar.toNat).toNat = scalar.toNat := by
      rw [UInt16.toNat_ofNat']
      omega
    refine .inl ⟨UInt16.ofNat scalar.toNat, if_pos hsmall, ?_, ?_⟩
    · simp only [isHigh, hunit, Bool.and_eq_false_iff, decide_eq_false_iff_not]
      omega
    · simp only [isLow, hunit, Bool.and_eq_false_iff, decide_eq_false_iff_not]
      omega
  · refine .inr ⟨_, _, if_neg hsmall, ?_, ?_⟩
    · rw [isHigh_iff, UInt16.toNat_ofNat']
      omega
    · rw [isLow_iff, UInt16.toNat_ofNat']
      omega

theorem exists_scalar_of_unit {unit : UInt16} (hhigh : isHigh unit = false)
    (hlow : isLow unit = false) : ∃ scalar, encodeScalar scalar = [unit] := by
  have hbound := unit.toNat_lt
  have hvalid : unit.toNat.isValidChar := by
    simp only [isHigh, isLow, Bool.and_eq_false_iff, decide_eq_false_iff_not] at hhigh hlow
    unfold Nat.isValidChar
    omega
  have hscalar : (Char.ofNat unit.toNat).toNat = unit.toNat := toNat_ofNat hvalid
  refine ⟨Char.ofNat unit.toNat, ?_⟩
  rw [encodeScalar, hscalar, if_pos hbound, UInt16.ofNat_toNat]

theorem exists_scalar_of_pair {high low : UInt16} (hhigh : isHigh high = true)
    (hlow : isLow low = true) : ∃ scalar, encodeScalar scalar = [high, low] := by
  rw [isHigh_iff] at hhigh
  rw [isLow_iff] at hlow
  obtain ⟨value, hvalue⟩ : ∃ value, value =
      0x10000 + (high.toNat - 0xD800) * 0x400 + (low.toNat - 0xDC00) := ⟨_, rfl⟩
  have hvalid : value.isValidChar := by
    unfold Nat.isValidChar
    omega
  have hfirst : UInt16.ofNat (0xD800 + (value - 0x10000) / 0x400) = high := by
    apply UInt16.toNat_inj.mp
    rw [UInt16.toNat_ofNat']
    omega
  have hsecond : UInt16.ofNat (0xDC00 + (value - 0x10000) % 0x400) = low := by
    apply UInt16.toNat_inj.mp
    rw [UInt16.toNat_ofNat']
    omega
  refine ⟨Char.ofNat value, ?_⟩
  rw [encodeScalar, toNat_ofNat hvalid, if_neg (by omega), hfirst, hsecond]

theorem encode_ne_nil (scalar : Char) (scalars : List Char) : encode (scalar :: scalars) ≠ [] := by
  rw [encode_cons]
  obtain ⟨unit, hunit, -⟩ | ⟨high, low, hpair, -⟩ := encodeScalar_cases scalar
  · simp [hunit]
  · simp [hpair]

/-! ### Well-formed beginnings -/

/-- The first `length` units are a well-formed encoding of `scalars` scalars. -/
def Begins (units : Units) (scalars length : Nat) : Prop :=
  ∃ text : List Char, text.length = scalars ∧ encode text <+: units ∧ (encode text).length = length

theorem begins_zero {units : Units} {length : Nat} : Begins units 0 length ↔ length = 0 := by
  constructor
  · rintro ⟨text, hnone, -, rfl⟩
    rw [List.eq_nil_of_length_eq_zero hnone]
    rfl
  · rintro rfl
    exact ⟨[], rfl, List.nil_prefix, rfl⟩

theorem Begins.length_pos {units : Units} {scalars length : Nat}
    (h : Begins units (scalars + 1) length) : 0 < length := by
  obtain ⟨text, hscalars, -, rfl⟩ := h
  obtain ⟨scalar, text, rfl⟩ := List.exists_cons_of_length_eq_add_one hscalars
  exact List.length_pos_iff.mpr (encode_ne_nil scalar text)

theorem Begins.length_le {units : Units} {scalars length : Nat} (h : Begins units scalars length) :
    length ≤ units.length := by
  obtain ⟨text, -, hleads, rfl⟩ := h
  exact hleads.length_le

theorem begins_unit {unit : UInt16} (hhigh : isHigh unit = false) (hlow : isLow unit = false)
    {units : Units} {scalars length : Nat} :
    Begins (unit :: units) (scalars + 1) (length + 1) ↔ Begins units scalars length := by
  constructor
  · rintro ⟨text, hscalars, ⟨after, hafter⟩, hlength⟩
    obtain ⟨scalar, text, rfl⟩ := List.exists_cons_of_length_eq_add_one hscalars
    obtain ⟨first, hfirst, -⟩ | ⟨high, low, hpair, hishigh, -⟩ := encodeScalar_cases scalar
    · rw [encode_cons, hfirst, List.singleton_append] at hafter hlength
      rw [List.cons_append, List.cons.injEq] at hafter
      exact ⟨text, Nat.succ_injective hscalars, ⟨after, hafter.2⟩, Nat.succ_injective hlength⟩
    · rw [encode_cons, hpair, List.append_assoc, List.cons_append, List.cons.injEq] at hafter
      rw [hafter.1, hhigh] at hishigh
      cases hishigh
  · rintro ⟨text, rfl, hleads, rfl⟩
    obtain ⟨scalar, hscalar⟩ := exists_scalar_of_unit hhigh hlow
    refine ⟨scalar :: text, rfl, ?_, ?_⟩
    · rw [encode_cons, hscalar]
      exact List.cons_prefix_cons.mpr ⟨rfl, hleads⟩
    · rw [encode_cons, hscalar]
      rfl

/-- A high surrogate needs the low one behind it. -/
theorem begins_high {high : UInt16} (hhigh : isHigh high = true) {units : Units}
    {scalars length : Nat} :
    Begins (high :: units) (scalars + 1) length ↔
      ∃ low rest left, units = low :: rest ∧ isLow low = true ∧ length = left + 2 ∧
        Begins rest scalars left := by
  constructor
  · rintro ⟨text, hscalars, ⟨after, hafter⟩, rfl⟩
    obtain ⟨scalar, text, rfl⟩ := List.exists_cons_of_length_eq_add_one hscalars
    obtain ⟨first, hfirst, hnothigh, -⟩ | ⟨first, low, hpair, -, hlow⟩ := encodeScalar_cases scalar
    · rw [encode_cons, hfirst, List.append_assoc, List.singleton_append, List.cons.injEq] at hafter
      rw [hafter.1, hhigh] at hnothigh
      cases hnothigh
    · rw [encode_cons, hpair, List.append_assoc, List.cons_append, List.cons.injEq] at hafter
      refine ⟨low, encode text ++ after, (encode text).length, hafter.2.symm, hlow, ?_, text,
        Nat.succ_injective hscalars, List.prefix_append _ _, rfl⟩
      rw [encode_cons, hpair, List.length_append, Nat.add_comm]
      rfl
  · rintro ⟨low, rest, left, rfl, hlow, rfl, text, rfl, hleads, rfl⟩
    obtain ⟨scalar, hscalar⟩ := exists_scalar_of_pair hhigh hlow
    refine ⟨scalar :: text, rfl, ?_, ?_⟩
    · rw [encode_cons, hscalar]
      exact List.cons_prefix_cons.mpr ⟨rfl, List.cons_prefix_cons.mpr ⟨rfl, hleads⟩⟩
    · rw [encode_cons, hscalar, List.length_append, Nat.add_comm]
      rfl

theorem not_begins_low {low : UInt16} (hlow : isLow low = true) {units : Units}
    {scalars length : Nat} : ¬ Begins (low :: units) (scalars + 1) length := by
  rintro ⟨text, hscalars, ⟨after, hafter⟩, -⟩
  obtain ⟨scalar, text, rfl⟩ := List.exists_cons_of_length_eq_add_one hscalars
  obtain ⟨first, hfirst, -, hnotlow⟩ | ⟨high, second, hpair, hhigh, -⟩ := encodeScalar_cases scalar
  · rw [encode_cons, hfirst, List.append_assoc, List.singleton_append, List.cons.injEq] at hafter
    rw [hafter.1, hlow] at hnotlow
    cases hnotlow
  · rw [encode_cons, hpair, List.append_assoc, List.cons_append, List.cons.injEq] at hafter
    rw [hafter.1, not_high_of_low hlow] at hhigh
    cases hhigh

theorem not_begins_nil {scalars length : Nat} : ¬ Begins [] (scalars + 1) length := by
  intro h
  exact absurd (h.length_le.trans_eq List.length_nil) (Nat.not_le.mpr h.length_pos)

/-! ### Surrogates that no scalar has -/

/-- A high surrogate without a low one behind it, or a low one without a high one before it. -/
def LoneAt (text : Units) (index : Nat) : Prop :=
  ∃ unit, text[index]? = some unit ∧
    ((isHigh unit = true ∧ ∀ next, text[index + 1]? = some next → isLow next = false) ∨
      (isLow unit = true ∧
        ∀ before, 0 < index → text[index - 1]? = some before → isHigh before = false))

/-- The offset stands between a high surrogate and the low one behind it. -/
def Splits (text : Units) (offset : Nat) : Prop :=
  ∃ high low, 0 < offset ∧ text[offset - 1]? = some high ∧ isHigh high = true ∧
    text[offset]? = some low ∧ isLow low = true

theorem LoneAt.tail {unit : UInt16} {text : Units} {index : Nat}
    (h : LoneAt (unit :: text) (index + 1)) : LoneAt text index := by
  obtain ⟨found, hfound, hlone⟩ := h
  refine ⟨found, by simpa using hfound, ?_⟩
  obtain ⟨hhigh, hnext⟩ | ⟨hlow, hbefore⟩ := hlone
  · exact .inl ⟨hhigh, fun next hin => hnext next (by simpa using hin)⟩
  · refine .inr ⟨hlow, fun before hpos hin => hbefore before (Nat.succ_pos _) ?_⟩
    obtain ⟨index, rfl⟩ := Nat.exists_eq_succ_of_ne_zero hpos.ne'
    simpa using hin

theorem Splits.tail {unit : UInt16} {text : Units} {offset : Nat} (hpos : 0 < offset)
    (h : Splits (unit :: text) (offset + 1)) : Splits text offset := by
  obtain ⟨high, low, -, hbefore, hhigh, hbehind, hlow⟩ := h
  obtain ⟨offset, rfl⟩ := Nat.exists_eq_succ_of_ne_zero hpos.ne'
  exact ⟨high, low, hpos, by simpa using hbefore, hhigh, by simpa using hbehind, hlow⟩

/-- Scalars end before a lone surrogate. -/
theorem length_le_of_loneAt {scalars : List Char} {text : Units} {index : Nat}
    (h : encode scalars <+: text) (hlone : LoneAt text index) :
    (encode scalars).length ≤ index := by
  induction scalars generalizing text index with
  | nil => exact Nat.zero_le _
  | cons scalar scalars ih =>
    obtain ⟨after, rfl⟩ := h
    rw [encode_cons, List.append_assoc] at hlone
    obtain ⟨unit, hunit, hnothigh, hnotlow⟩ | ⟨high, low, hpair, hhigh, hlow⟩ :=
      encodeScalar_cases scalar
    · rw [hunit, List.singleton_append] at hlone
      rw [encode_cons, hunit, List.singleton_append, List.length_cons]
      cases index with
      | zero => simp [LoneAt, hnothigh, hnotlow] at hlone
      | succ index => exact Nat.succ_le_succ (ih (List.prefix_append _ _) hlone.tail)
    · rw [hpair] at hlone
      rw [encode_cons, hpair, List.length_append]
      match index with
      | 0 => simp [LoneAt, hlow, not_low_of_high hhigh] at hlone
      | 1 =>
        simp [LoneAt, hhigh, not_high_of_low hlow] at hlone
      | index + 2 =>
        have hrest := ih (List.prefix_append _ _) hlone.tail.tail
        rw [List.length_cons, List.length_singleton]
        omega

/-- Scalars end where no pair is split. -/
theorem not_splits_length {scalars : List Char} {text : Units} (h : encode scalars <+: text) :
    ¬ Splits text (encode scalars).length := by
  induction scalars generalizing text with
  | nil =>
    rintro ⟨high, low, hpos, -⟩
    exact absurd hpos (Nat.lt_irrefl _)
  | cons scalar scalars ih =>
    obtain ⟨after, rfl⟩ := h
    intro hsplits
    obtain ⟨unit, hunit, hnothigh, -⟩ | ⟨high, low, hpair, hhigh, hlow⟩ :=
      encodeScalar_cases scalar
    · rw [encode_cons, hunit, List.append_assoc, List.singleton_append, List.singleton_append,
        List.length_cons] at hsplits
      obtain hzero | hpos := Nat.eq_zero_or_pos (encode scalars).length
      · rw [hzero] at hsplits
        simp [Splits, hnothigh] at hsplits
      · exact ih (List.prefix_append _ _) (hsplits.tail hpos)
    · rw [encode_cons, hpair, List.append_assoc, List.cons_append, List.singleton_append,
        List.cons_append, List.singleton_append, List.length_cons, List.length_cons] at hsplits
      obtain hzero | hpos := Nat.eq_zero_or_pos (encode scalars).length
      · rw [hzero] at hsplits
        simp [Splits, not_high_of_low hlow] at hsplits
      · exact ih (List.prefix_append _ _) ((hsplits.tail (Nat.succ_pos _)).tail hpos)

theorem Begins.le_of_loneAt {text : Units} {scalars length index : Nat}
    (h : Begins text scalars length) (hlone : LoneAt text index) : length ≤ index := by
  obtain ⟨scalars, -, hleads, rfl⟩ := h
  exact length_le_of_loneAt hleads hlone

theorem Begins.not_splits {text : Units} {scalars length : Nat} (h : Begins text scalars length) :
    ¬ Splits text length := by
  obtain ⟨scalars, -, hleads, rfl⟩ := h
  exact not_splits_length hleads

end Utf16
