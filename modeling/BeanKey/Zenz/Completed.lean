import BeanKey.Input.Batch
import BeanKey.Zenz.Conversion

/-! An accepted prediction: the reading it leaves in the composing text, and whether it stays the
accepted one. -/
namespace BeanKey.Session
open Input ComposingText
open BeanKey.Lattice hiding Candidate

/-! ### The letters that wait for their kana -/

/-- The last elements of the surface, as many as there are pending letters, hold just these. -/
def DropsLetters (tables : InputTableRegistry) (text : ComposingText) : Prop :=
  (text.surface.drop (text.surface.length -
      (predictiveInputSource tables text).droppedSuffixCount)).flatten.length =
    (predictiveInputSource tables text).droppedSuffixCount

theorem predictiveInputSource_base (tables : InputTableRegistry) (text : ComposingText) :
    (predictiveInputSource tables text).baseSurface = text.surfaceText.take
        (text.surfaceText.length - (predictiveInputSource tables text).droppedSuffixCount) ∧
      (predictiveInputSource tables text).droppedSuffixCount ≤ text.surfaceText.length := by
  have hletters : (text.surfaceText.reverse.takeWhile isAsciiAlphabetic).reverse.length ≤
      text.surfaceText.length := by
    rw [List.length_reverse]
    exact (List.takeWhile_sublist _).length_le.trans_eq (List.length_reverse)
  rw [predictiveInputSource]
  cases text.input.getLast? with
  | none => simp
  | some last =>
    dsimp only
    split
    · simp
    · cases tables.resolve last.inputStyle with
      | none => simp
      | some table =>
        dsimp only
        split
        · simp
        · exact ⟨rfl, hletters⟩

def withoutLetters (tables : InputTableRegistry) (text : ComposingText) : ComposingText :=
  if 0 < (predictiveInputSource tables text).droppedSuffixCount then
    text.deleteBackward tables (predictiveInputSource tables text).droppedSuffixCount
  else text

section
variable {unicode : UnicodeTable} {tables : InputTableRegistry} {text : ComposingText}

theorem withoutLetters_surface (h : text.WellFormed tables)
    (hend : text.cursor = text.surface.length) :
    (withoutLetters tables text).surface = text.surface.take (text.surface.length -
        (predictiveInputSource tables text).droppedSuffixCount) ∧
      (withoutLetters tables text).cursor = (withoutLetters tables text).surface.length := by
  rw [withoutLetters]
  split
  · exact deleteBackward_end h hend _
  · next hnone =>
    rw [Nat.eq_zero_of_not_pos hnone, Nat.sub_zero, List.take_length]
    exact ⟨rfl, hend⟩

theorem withoutLetters_wellFormed (h : text.WellFormed tables) :
    (withoutLetters tables text).WellFormed tables := by
  rw [withoutLetters]
  split
  · exact deleteBackward_wellFormed h _
  · exact h

/-- The letters are dropped, and nothing else, exactly when their elements hold just them. -/
theorem withoutLetters_text (h : text.WellFormed tables)
    (hend : text.cursor = text.surface.length) :
    toHiragana (withoutLetters tables text).surfaceText =
        toHiragana (predictiveInputSource tables text).baseSurface ↔ DropsLetters tables text := by
  obtain ⟨hbase, hle⟩ := predictiveInputSource_base tables text
  obtain ⟨hsurface, -⟩ := withoutLetters_surface h hend
  generalize hcount : (predictiveInputSource tables text).droppedSuffixCount = count at *
  have hsplit : text.surfaceText = (withoutLetters tables text).surfaceText ++
      (text.surface.drop (text.surface.length - count)).flatten := by
    rw [surfaceText, surfaceText, hsurface, ← List.flatten_append, List.take_append_drop]
  have hlength := congrArg List.length hsplit
  rw [List.length_append] at hlength
  rw [DropsLetters, hcount]
  constructor
  · intro htext
    have hsame := congrArg List.length htext
    rw [toHiragana, toHiragana, List.length_map, List.length_map, hbase, List.length_take] at hsame
    omega
  · intro hletters
    have hkept : text.surfaceText.length - count =
        (withoutLetters tables text).surfaceText.length := by
      omega
    rw [hbase, hkept]
    conv_rhs => rw [hsplit, List.take_left]

end

/-! ### What is accepted -/

/-- The new text reads as the prediction, the cursor stands behind it, and it is the accepted
one. -/
structure AcceptsExactly (candidate : Candidate) (accepted : ConversionSession) : Prop where
  text : toHiragana accepted.composing.surfaceText = toHiragana candidate.reading
  atEnd : accepted.composing.isAtEnd = true
  kept : accepted.acceptedPredictionNow = some candidate

section
variable {unicode : UnicodeTable} {tables : InputTableRegistry}
  {session accepted : ConversionSession}
  {candidate : Candidate}

/-- When a prediction is accepted, and what the session is then. -/
theorem acceptPredictionCandidate_eq
    (h : session.acceptPredictionCandidate unicode tables candidate = some accepted) :
    session.composing.cursor = session.composing.surface.length ∧
      ∃ remaining ≠ [], toHiragana candidate.reading =
          toHiragana (predictiveInputSource tables session.composing).baseSurface ++ remaining ∧
        accepted.composing = (withoutLetters tables session.composing).insertStr unicode tables
          remaining .direct ∧
        accepted.acceptedPrediction = some candidate := by
  rw [ConversionSession.acceptPredictionCandidate] at h
  split at h
  · cases h
  · next hguard =>
    have hend : session.composing.cursor = session.composing.surface.length := by
      simp only [isAtEnd, Bool.or_eq_true, Bool.not_eq_true', not_or] at hguard
      simpa using hguard.2
    dsimp only at h
    split at h
    · cases h
    · cases h
    · next remaining hne hstrip =>
      obtain rfl := Option.some.inj h
      exact ⟨hend, remaining, hne, append_of_stripPrefix hstrip, rfl, rfl⟩

theorem isPrefixOf_toKatakana (reading : Text) :
    reading.isPrefixOf (toKatakana reading) = true ↔ toKatakana reading = reading := by
  rw [List.isPrefixOf_iff_prefix]
  constructor
  · intro hleads
    exact (hleads.eq_of_length (by rw [toKatakana, List.length_map])).symm
  · intro hsame
    rw [hsame]

/-- An accepted prediction leaves its reading and stays accepted exactly when the pending letters
are elements of their own and the reading is written in katakana. -/
theorem accepts_exactly_iff
    (hreached : Operated unicode tables (InsertsSafely unicode tables) session.composing)
    (h : session.acceptPredictionCandidate unicode tables candidate = some accepted) :
    AcceptsExactly candidate accepted ↔
      DropsLetters tables session.composing ∧ toKatakana candidate.reading = candidate.reading := by
  have hwell := hreached.wellFormed fun _ _ hsafe => hsafe
  obtain ⟨hend, remaining, hne, hreading, hcomposing, hcandidate⟩ := acceptPredictionCandidate_eq h
  obtain ⟨-, hcursor⟩ := withoutLetters_surface hwell hend
  obtain ⟨hsurface, hatEnd⟩ := @insertStr_direct unicode tables _ (withoutLetters_wellFormed hwell)
    hcursor remaining hne
  rw [← hcomposing] at hsurface hatEnd
  have htext : accepted.composing.surfaceText =
      (withoutLetters tables session.composing).surfaceText ++ remaining := by
    rw [surfaceText, hsurface, List.flatten_append, flatten_graphemes]
    rfl
  have hremaining : toHiragana remaining = remaining := by
    have hagain := congrArg toHiragana hreading
    rw [toHiragana_toHiragana, toHiragana, toHiragana, List.map_append, ← toHiragana, ← toHiragana,
      toHiragana_toHiragana, ← toHiragana, hreading] at hagain
    exact (List.append_cancel_left hagain).symm
  have hspelled : toHiragana accepted.composing.surfaceText = toHiragana candidate.reading ↔
      DropsLetters tables session.composing := by
    rw [← withoutLetters_text hwell hend, htext, hreading, toHiragana,
      List.map_append, ← toHiragana,
      ← toHiragana, hremaining]
    exact List.append_left_inj remaining
  have hkept : toHiragana accepted.composing.surfaceText = toHiragana candidate.reading →
      (accepted.acceptedPredictionNow = some candidate ↔
        toKatakana candidate.reading = candidate.reading) := by
    intro hsame
    have hkatakana : toKatakana accepted.composing.surfaceText = toKatakana candidate.reading := by
      rw [← toKatakana_toHiragana, hsame, toKatakana_toHiragana]
    rw [ConversionSession.acceptedPredictionNow, hcandidate, hkatakana, ← isPrefixOf_toKatakana,
      Option.filter_eq_some_iff]
    simp
  constructor
  · intro hexact
    exact ⟨hspelled.mp hexact.text, (hkept hexact.text).mp hexact.kept⟩
  · rintro ⟨hletters, hkatakana⟩
    have hsame := hspelled.mpr hletters
    exact ⟨hsame, by rw [isAtEnd, hatEnd, decide_eq_true rfl], (hkept hsame).mpr hkatakana⟩

end

def nameCandidate (ruby : Text) : Candidate where
  text := ['仮', '名']
  value := 0
  composingCount := .surface 1
  lastMeaningId := 501
  entries :=
    [{ word := ['仮', '名'], ruby, leftId := 1288, rightId := 1288, meaningId :=
      501, baseValue := 0 }]

def nameSession : ConversionSession :=
  { composing := ComposingText.new.edit .kana endingTables (.insertStr ['か'] .direct) }

theorem operated_nameSession :
    Operated .kana endingTables (InsertsSafely .kana endingTables) nameSession.composing :=
  .edit (.insertStr ['か'] .direct) .new (insertStr_safely .kana endingTables (fun h => h.2 rfl) _ _)

/-- A reading in katakana is accepted exactly. -/
theorem accepts_katakana : ∃ accepted,
    nameSession.acceptPredictionCandidate .kana endingTables (nameCandidate ['カ', 'ナ']) =
      some accepted ∧ AcceptsExactly (nameCandidate ['カ', 'ナ']) accepted := by
  obtain ⟨accepted, haccepted⟩ := Option.isSome_iff_exists.mp (show
    (nameSession.acceptPredictionCandidate .kana endingTables (nameCandidate ['カ', 'ナ'])).isSome by
      decide +kernel)
  have hletters : DropsLetters endingTables nameSession.composing := by
    rw [DropsLetters]
    decide +kernel
  exact ⟨accepted, haccepted,
    (accepts_exactly_iff operated_nameSession haccepted).mpr ⟨hletters, by decide⟩⟩

/-- A reading with hiragana in it is completed, and given up at once. -/
theorem hiragana_not_kept : ∃ accepted,
    Operated .kana endingTables (InsertsSafely .kana endingTables) nameSession.composing ∧
      nameSession.acceptPredictionCandidate .kana endingTables (nameCandidate ['カ', 'な']) =
        some accepted ∧ ¬AcceptsExactly (nameCandidate ['カ', 'な']) accepted := by
  obtain ⟨accepted, haccepted, hnow⟩ := Option.map_eq_some_iff.mp (show
    (nameSession.acceptPredictionCandidate .kana endingTables (nameCandidate ['カ', 'な'])).map
      ConversionSession.acceptedPredictionNow = some none by decide +kernel)
  refine ⟨accepted, operated_nameSession, haccepted, fun hexact => ?_⟩
  have hkept := hexact.kept
  rw [hnow] at hkept
  cases hkept

end BeanKey.Session
