import BeanKey.Library.Utf16

/-! Offsets into the host's text on macOS: in code units there, in scalars in the protocol. -/
namespace BeanKey.Client
open Utf16

/-- The loop of `utf16Offset`: the scalars still to be counted, and the offset reached. -/
def utf16OffsetFrom (text : Units) : Nat → Nat → Option Nat
  | 0, offset => some offset
  | scalar + 1, offset =>
    match text[offset]? with
    | none => none
    | some value =>
      if isHigh value then
        match text[offset + 1]? with
        | none => none
        | some next => if isLow next then utf16OffsetFrom text scalar (offset + 2) else none
      else if isLow value then none
      else utf16OffsetFrom text scalar (offset + 1)

def utf16Offset (text : Option Units) (scalar : Nat) : Option Nat := do
  let text ← text
  utf16OffsetFrom text scalar 0

def scalarOffsetFrom (text : Units) (utf16 offset scalars : Nat) : Option Nat :=
  if offset < utf16 then
    match text[offset]? with
    | none => none
    | some value =>
      if isHigh value then
        if utf16 ≤ offset + 1 then none
        else
          match text[offset + 1]? with
          | none => none
          | some next =>
            if isLow next then scalarOffsetFrom text utf16 (offset + 2) (scalars + 1) else none
      else if isLow value then none
      else scalarOffsetFrom text utf16 (offset + 1) (scalars + 1)
  else some scalars
termination_by utf16 - offset

def scalarOffset (text : Option Units) (utf16 : Nat) : Option Nat := do
  let text ← text
  if text.length < utf16 then none else scalarOffsetFrom text utf16 0 0

/-! ### The two loops -/

theorem drop_of_getElem? {text : Units} {offset : Nat} {value : UInt16}
    (h : text[offset]? = some value) : text.drop offset = value :: text.drop (offset + 1) := by
  obtain ⟨hlt, rfl⟩ := List.getElem?_eq_some_iff.mp h
  exact List.drop_eq_getElem_cons hlt

theorem drop_of_getElem?_none {text : Units} {offset : Nat} (h : text[offset]? = none) :
    text.drop offset = [] :=
  List.drop_eq_nil_of_le (List.getElem?_eq_none_iff.mp h)

/-- The loop stops behind as many scalars as it still counts, and where there are none it fails. -/
theorem utf16OffsetFrom_eq_some_iff (text : Units) (scalar offset utf16 : Nat) :
    utf16OffsetFrom text scalar offset = some utf16 ↔
      ∃ length, utf16 = offset + length ∧ Begins (text.drop offset) scalar length := by
  induction scalar generalizing offset with
  | zero => simp [utf16OffsetFrom, begins_zero, eq_comm]
  | succ scalar ih =>
    rw [utf16OffsetFrom]
    cases hvalue : text[offset]? with
    | none =>
      rw [drop_of_getElem?_none hvalue]
      simp [not_begins_nil]
    | some value =>
      rw [drop_of_getElem? hvalue]
      cases hhigh : isHigh value with
      | true =>
        simp only [hhigh, if_true, begins_high hhigh]
        cases hnext : text[offset + 1]? with
        | none =>
          rw [drop_of_getElem?_none hnext]
          simp
        | some next =>
          rw [drop_of_getElem? hnext]
          cases hlow : isLow next with
          | true =>
            simp only [hlow, if_true, ih]
            constructor
            · rintro ⟨length, rfl, hbegins⟩
              exact ⟨length + 2, by omega, next, _, length, rfl, hlow, rfl, hbegins⟩
            · rintro ⟨-, rfl, low, rest, left, hrest, -, rfl, hbegins⟩
              obtain ⟨-, rfl⟩ := List.cons.inj hrest
              exact ⟨left, by omega, hbegins⟩
          | false =>
            simp only [hlow, Bool.false_eq_true, if_false, reduceCtorEq, false_iff]
            rintro ⟨length, -, low, rest, left, hrest, hislow, -⟩
            rw [← (List.cons.inj hrest).1, hlow] at hislow
            cases hislow
      | false =>
        cases hlow : isLow value with
        | true => simp [hhigh, hlow, not_begins_low hlow]
        | false =>
          simp only [hhigh, hlow, Bool.false_eq_true, if_false, ih]
          constructor
          · rintro ⟨length, rfl, hbegins⟩
            exact ⟨length + 1, by omega, (begins_unit hhigh hlow).mpr hbegins⟩
          · rintro ⟨length, rfl, hbegins⟩
            obtain ⟨left, rfl⟩ := Nat.exists_eq_succ_of_ne_zero hbegins.length_pos.ne'
            exact ⟨left, by omega, (begins_unit hhigh hlow).mp hbegins⟩

/-- The loop counts the scalars up to the offset, and fails where the units between are no
well-formed encoding. -/
theorem scalarOffsetFrom_eq_some_iff (text : Units) (left offset scalars scalar : Nat)
    (hinside : offset + left ≤ text.length) :
    scalarOffsetFrom text (offset + left) offset scalars = some scalar ↔
      ∃ further, scalar = scalars + further ∧ Begins (text.drop offset) further left := by
  induction left using Nat.strong_induction_on generalizing offset scalars with
  | _ left ih =>
    rw [scalarOffsetFrom]
    cases left with
    | zero =>
      rw [if_neg (by omega), Option.some.injEq]
      constructor
      · rintro rfl
        exact ⟨0, rfl, begins_zero.mpr rfl⟩
      · rintro ⟨further, rfl, hbegins⟩
        cases further with
        | zero => rfl
        | succ further => exact absurd hbegins.length_pos (Nat.lt_irrefl 0)
    | succ left =>
      have hsome : ∀ {units further}, Begins units further (left + 1) →
          ∃ fewer, further = fewer + 1 := by
        intro units further hbegins
        cases further with
        | zero => cases begins_zero.mp hbegins
        | succ fewer => exact ⟨fewer, rfl⟩
      obtain ⟨value, hvalue⟩ : ∃ value, text[offset]? = some value :=
        ⟨_, List.getElem?_eq_getElem (show offset < text.length by omega)⟩
      rw [if_pos (by omega), hvalue, drop_of_getElem? hvalue]
      cases hhigh : isHigh value with
      | true =>
        simp only [hhigh, if_true]
        cases left with
        | zero =>
          simp only [Nat.zero_add, Nat.le_refl, if_true, reduceCtorEq, false_iff]
          rintro ⟨further, -, hbegins⟩
          obtain ⟨fewer, rfl⟩ := hsome hbegins
          obtain ⟨low, rest, length, -, -, hlength, -⟩ := (begins_high hhigh).mp hbegins
          omega
        | succ left =>
          obtain ⟨next, hnext⟩ : ∃ next, text[offset + 1]? = some next :=
            ⟨_, List.getElem?_eq_getElem (show offset + 1 < text.length by omega)⟩
          rw [if_neg (by omega), hnext, drop_of_getElem? hnext]
          cases hlow : isLow next with
          | true =>
            have hrest := ih left (by omega) (offset + 2) (scalars + 1) (by omega)
            rw [show offset + 2 + left = offset + (left + 1 + 1) by omega] at hrest
            simp only [hlow, if_true, hrest]
            constructor
            · rintro ⟨further, rfl, hbegins⟩
              exact ⟨further + 1, by omega, (begins_high hhigh).mpr
                ⟨next, _, left, rfl, hlow, rfl, hbegins⟩⟩
            · rintro ⟨further, rfl, hbegins⟩
              obtain ⟨fewer, rfl⟩ := hsome hbegins
              obtain ⟨low, rest, length, hunits, -, hlength, hbehind⟩ :=
                (begins_high hhigh).mp hbegins
              obtain ⟨-, rfl⟩ := List.cons.inj hunits
              obtain rfl : left = length := by omega
              exact ⟨fewer, by omega, hbehind⟩
          | false =>
            simp only [hlow, Bool.false_eq_true, if_false, reduceCtorEq, false_iff]
            rintro ⟨further, -, hbegins⟩
            obtain ⟨fewer, rfl⟩ := hsome hbegins
            obtain ⟨low, rest, length, hunits, hislow, -⟩ := (begins_high hhigh).mp hbegins
            rw [← (List.cons.inj hunits).1, hlow] at hislow
            cases hislow
      | false =>
        cases hlow : isLow value with
        | true =>
          simp only [hhigh, hlow, Bool.false_eq_true, if_false, if_true, reduceCtorEq, false_iff]
          rintro ⟨further, -, hbegins⟩
          obtain ⟨fewer, rfl⟩ := hsome hbegins
          exact not_begins_low hlow hbegins
        | false =>
          have hrest := ih left (by omega) (offset + 1) (scalars + 1) (by omega)
          rw [show offset + 1 + left = offset + (left + 1) by omega] at hrest
          simp only [hhigh, hlow, Bool.false_eq_true, if_false, hrest]
          constructor
          · rintro ⟨further, rfl, hbegins⟩
            exact ⟨further + 1, by omega, (begins_unit hhigh hlow).mpr hbegins⟩
          · rintro ⟨further, rfl, hbegins⟩
            obtain ⟨fewer, rfl⟩ := hsome hbegins
            exact ⟨fewer, by omega, (begins_unit hhigh hlow).mp hbegins⟩

/-! ### The offsets -/

theorem utf16Offset_eq_some_iff (text : Units) (scalar utf16 : Nat) :
    utf16Offset (some text) scalar = some utf16 ↔ Begins text scalar utf16 := by
  refine (utf16OffsetFrom_eq_some_iff text scalar 0 utf16).trans ?_
  simp

theorem scalarOffset_eq_some_iff (text : Units) (utf16 scalar : Nat) :
    scalarOffset (some text) utf16 = some scalar ↔ Begins text scalar utf16 := by
  by_cases hinside : utf16 ≤ text.length
  · have hloop := scalarOffsetFrom_eq_some_iff text utf16 0 0 scalar (by rwa [Nat.zero_add])
    simpa [scalarOffset, Nat.not_lt.mpr hinside] using hloop
  · have hnone : scalarOffset (some text) utf16 = none := if_pos (Nat.not_le.mp hinside)
    rw [hnone]
    exact iff_of_false nofun fun h => hinside h.length_le

/-- The two offsets are each other's inverse, both exactly at well-formed beginnings; what lies out
of range, splits a pair or stands behind a lone surrogate is refused by both. -/
theorem offsets_agree (text : Units) (scalar utf16 : Nat) :
    (utf16Offset (some text) scalar = some utf16 ↔ scalarOffset (some text) utf16 = some scalar) ∧
    (utf16Offset (some text) scalar = some utf16 ↔
      utf16 ≤ text.length ∧
        ∃ scalars : List Char, scalars.length = scalar ∧ text.take utf16 = encode scalars) ∧
    (utf16Offset (some text) scalar = none ↔ ∀ offset, ¬ Begins text scalar offset) ∧
    (scalarOffset (some text) utf16 = none ↔ ∀ scalars, ¬ Begins text scalars utf16) ∧
    (text.length < utf16 ∨ Splits text utf16 ∨ (∃ index < utf16, LoneAt text index) →
      scalarOffset (some text) utf16 = none) ∧
    ∀ offset, utf16Offset (some text) scalar = some offset →
      offset ≤ text.length ∧ ¬ Splits text offset ∧ ∀ index < offset, ¬ LoneAt text index := by
  have hnone : ∀ {found : Option Nat} {P : Nat → Prop}, (∀ value, found = some value ↔ P value) →
      (found = none ↔ ∀ value, ¬ P value) := by
    intro found P hsome
    rw [Option.eq_none_iff_forall_ne_some]
    exact forall_congr' fun value => not_congr (hsome value)
  have hrefused : scalarOffset (some text) utf16 = none ↔ ∀ scalars, ¬ Begins text scalars utf16 :=
    hnone (scalarOffset_eq_some_iff text utf16)
  refine ⟨(utf16Offset_eq_some_iff text scalar utf16).trans
    (scalarOffset_eq_some_iff text utf16 scalar).symm, ?_,
      hnone (utf16Offset_eq_some_iff text scalar),
    hrefused, ?_, ?_⟩
  · rw [utf16Offset_eq_some_iff]
    constructor
    · rintro ⟨scalars, hscalars, hleads, rfl⟩
      exact ⟨hleads.length_le, scalars, hscalars, (List.prefix_iff_eq_take.mp hleads).symm⟩
    · rintro ⟨hinside, scalars, hscalars, htake⟩
      refine ⟨scalars, hscalars, htake ▸ List.take_prefix _ _, ?_⟩
      rw [← htake, List.length_take, Nat.min_eq_left hinside]
  · rw [hrefused]
    rintro (hout | hsplits | ⟨index, hindex, hlone⟩) scalars hbegins
    · exact absurd hbegins.length_le (Nat.not_le.mpr hout)
    · exact hbegins.not_splits hsplits
    · exact absurd (hbegins.le_of_loneAt hlone) (Nat.not_le.mpr hindex)
  · intro offset hoffset
    have hbegins := (utf16Offset_eq_some_iff text scalar offset).mp hoffset
    exact ⟨hbegins.length_le, hbegins.not_splits, fun index hindex hlone =>
      absurd (hbegins.le_of_loneAt hlone) (Nat.not_le.mpr hindex)⟩

end BeanKey.Client
