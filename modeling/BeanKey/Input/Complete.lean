import BeanKey.Input.Cursor

/-! Completing a prefix with every subtraction of lengths checked. -/
namespace BeanKey.Input
variable {unicode : UnicodeTable} {tables : InputTableRegistry}

/-- Subtraction of `usize` values where an underflow stops the program. -/
def checkedSub (left right : Nat) : Option Nat := if right ≤ left then some (left - right) else none

theorem checkedSub_of_le {left right : Nat} (h : right ≤ left) :
    checkedSub left right = some (left - right) := if_pos h

/-! ### The checked functions -/

def BoundaryScan.stepChecked (tables : InputTableRegistry) (scan : BoundaryScan)
    (indexed : InputElement × Nat) : Option BoundaryScan := do
  let (converting, deleted) := updateSegments tables scan.converting indexed.1
  let convertedLen ←
    if converting.length = scan.converting.length then
      (checkedSub scan.convertedLen (tailLen scan.converting)).map (· + tailLen converting)
    else some (scan.convertedLen + tailLen converting)
  return {
    converting
    convertedLen
    boundaries := ⟨indexed.2 + 1, convertedLen⟩ ::
      scan.boundaries.dropWhile fun pair => !(pair.surface ≤ scan.convertedLen - deleted) }

def independentBoundariesChecked (tables : InputTableRegistry) (input : List InputElement) :
    Option (List IndexPair) :=
  (input.zipIdx.foldlM (BoundaryScan.stepChecked tables) {}).map BoundaryScan.boundaries

namespace ComposingText

def forceInputCursorChecked (tables : InputTableRegistry) (text : ComposingText)
    (targetSurface : Nat) : Option (ComposingText × Nat) :=
  if targetSurface = 0 then some (text, 0)
  else if text.surface.length ≤ targetSurface then some (text, text.input.length)
  else do
    let boundaries ← independentBoundariesChecked tables text.input
    match searchCursor targetSurface boundaries ⟨text.input.length, text.surface.length⟩ with
    | .boundary input => return (text, input)
    | .inside segmentStart segmentEnd =>
      let offset ← checkedSub targetSurface segmentStart.surface
      return ({ text with
        input := text.input.take segmentStart.input ++
          frozenCharacters ((text.surface.take segmentEnd.surface).drop segmentStart.surface) ++
            text.input.drop segmentEnd.input }, offset + segmentStart.input)

def completePrefixChecked (tables : InputTableRegistry) (text : ComposingText) :
    ComposingCount → Option ComposingText
  | .input count => do
    let input := text.input.drop (min count text.input.length)
    let surface := convertElements tables input
    let cursorDelta ← checkedSub text.surface.length surface.length
    let cursor := text.cursor - cursorDelta
    return { input, surface, cursor := if cursor = 0 then surface.length else cursor }
  | .surface count => do
    let count := min count text.surface.length
    let (forced, inputIndex) ← text.forceInputCursorChecked tables count
    let surface := forced.surface.drop count
    let cursor := forced.cursor - count
    return {
      input := forced.input.drop inputIndex
      surface
      cursor := if cursor = 0 then surface.length else cursor }
  | .composite left right => do
    let middle ← text.completePrefixChecked tables left
    middle.completePrefixChecked tables right

/-- Whatever is left after an input count converts to no more than is shown. -/
def NeverGrows (tables : InputTableRegistry) : ComposingText → ComposingCount → Prop
  | text, .input count =>
    (convertElements tables (text.input.drop count)).length ≤ text.surface.length
  | _, .surface _ => True
  | text, .composite left right => NeverGrows tables text left ∧
    ∀ middle, text.completePrefixChecked tables left = some middle → NeverGrows tables middle right

/-- No length underflows, and the text that is left is one. -/
def CompletesExactly (tables : InputTableRegistry) (text : ComposingText) (count : ComposingCount) :
    Prop :=
  ∃ after, text.completePrefixChecked tables count = some after ∧
    after.cursor ≤ after.surface.length ∧ after.surface = convertElements tables after.input

end ComposingText

/-! ### Nothing underflows on the way -/

theorem ScanInvariant.stepChecked {input : List InputElement} {scan : BoundaryScan}
    (h : ScanInvariant tables input scan) (element : InputElement) :
    scan.stepChecked tables (element, input.length) =
      some (scan.step tables (element, input.length)) := by
  have htail : tailLen scan.converting ≤ scan.convertedLen := by
    rw [h.convertedLen, h.converting]
    exact tailLen_le _
  unfold BoundaryScan.stepChecked BoundaryScan.step
  rw [checkedSub_of_le htail]
  dsimp only
  split <;> rfl

theorem foldlM_stepChecked (tables : InputTableRegistry) (input : List InputElement) :
    input.zipIdx.foldlM (BoundaryScan.stepChecked tables) {} = some (scanOf tables input) := by
  induction input using List.reverseRecOn with
  | nil => rfl
  | append_singleton input element ih =>
    rw [List.zipIdx_append, List.foldlM_append, ih, scanOf_concat]
    have hstep := (scan_invariant tables input).stepChecked element
    simpa using hstep

theorem independentBoundariesChecked_eq (tables : InputTableRegistry) (input : List InputElement) :
    independentBoundariesChecked tables input = some (independentBoundaries tables input) := by
  rw [independentBoundariesChecked, foldlM_stepChecked]
  rfl

theorem searchCursor_inside_le {boundaries : List IndexPair} {target : Nat}
    {segmentEnd first last : IndexPair}
    (h : searchCursor target boundaries segmentEnd = .inside first last) :
    first.surface ≤ target := by
  induction boundaries generalizing segmentEnd with
  | nil =>
    cases h
    exact Nat.zero_le _
  | cons start rest ih =>
    rw [searchCursor] at h
    split at h
    · cases h
    · split at h
      · rename_i hlt
        cases h
        exact hlt.le
      · split at h
        · exact ih h
        · exact ih h

namespace ComposingText

theorem forceInputCursorChecked_eq (tables : InputTableRegistry) (text : ComposingText)
    (target : Nat) :
    text.forceInputCursorChecked tables target = some (text.forceInputCursor tables target) := by
  unfold forceInputCursorChecked forceInputCursor
  rw [independentBoundariesChecked_eq]
  split
  · rfl
  · split
    · rfl
    · cases hsearch : searchCursor target (independentBoundaries tables text.input)
          ⟨text.input.length, text.surface.length⟩ with
      | boundary input => simp [hsearch]
      | inside first last => simp [hsearch, checkedSub_of_le (searchCursor_inside_le hsearch)]

theorem completePrefixChecked_surface (tables : InputTableRegistry) (text : ComposingText)
    (count : Nat) :
    text.completePrefixChecked tables (.surface count) =
      some (text.completePrefix tables (.surface count)) := by
  simp [completePrefixChecked, completePrefix, forceInputCursorChecked_eq]

/-! ### When nothing underflows -/

theorem forceInputCursor_surface (tables : InputTableRegistry) (text : ComposingText)
    (target : Nat) : (text.forceInputCursor tables target).1.surface = text.surface := by
  unfold forceInputCursor
  split
  · rfl
  · split
    · rfl
    · split <;> rfl

theorem drop_min_length {α : Type*} (count : Nat) (list : List α) :
    list.drop (min count list.length) = list.drop count := by
  rcases le_total count list.length with hle | hle
  · rw [Nat.min_eq_left hle]
  · rw [Nat.min_eq_right hle, List.drop_length, List.drop_of_length_le hle]

theorem completePrefixChecked_input {text after : ComposingText} {count : Nat}
    (h : text.completePrefixChecked tables (.input count) = some after) :
    (convertElements tables (text.input.drop count)).length ≤ text.surface.length ∧
      (text.WellFormed tables → after.WellFormed tables) := by
  simp only [completePrefixChecked, drop_min_length] at h
  obtain ⟨cursorDelta, hdelta, hafter⟩ := Option.bind_eq_some_iff.mp h
  have hle : (convertElements tables (text.input.drop count)).length ≤ text.surface.length := by
    by_contra hgrows
    rw [checkedSub, if_neg hgrows] at hdelta
    cases hdelta
  rw [checkedSub_of_le hle] at hdelta
  cases hdelta
  refine ⟨hle, fun hwell => ?_⟩
  cases hafter
  refine ⟨⟨rfl, fun element hin => hwell.coherent.quiet element (List.mem_of_mem_drop hin)⟩, ?_⟩
  have hcursor := hwell.cursor_le
  generalize convertElements tables (text.input.drop count) = surface at hle ⊢
  have hmoved : text.cursor - (text.surface.length - surface.length) ≤ surface.length := by omega
  show (if _ then _ else _) ≤ surface.length
  split
  · exact le_rfl
  · exact hmoved

theorem completePrefixChecked_wellFormed {count : ComposingCount} {text after : ComposingText}
    (h : text.WellFormed tables) (hafter : text.completePrefixChecked tables count = some after) :
    after.WellFormed tables := by
  induction count generalizing text after with
  | input count => exact (completePrefixChecked_input hafter).2 h
  | surface count =>
    rw [completePrefixChecked_surface] at hafter
    cases hafter
    exact completePrefix_surface_wellFormed h count
  | composite left right ihleft ihright =>
    obtain ⟨middle, hmiddle, hright⟩ := Option.bind_eq_some_iff.mp hafter
    exact ihright (ihleft h hmiddle) hright

theorem completePrefixChecked_isSome_iff (tables : InputTableRegistry) (text : ComposingText)
    (count : ComposingCount) :
    (∃ after, text.completePrefixChecked tables count = some after) ↔
      NeverGrows tables text count := by
  induction count generalizing text with
  | input count =>
    constructor
    · rintro ⟨after, hafter⟩
      exact (completePrefixChecked_input hafter).1
    · intro hle
      have hchecked := checkedSub_of_le hle
      simp only [completePrefixChecked, drop_min_length, hchecked]
      exact ⟨_, rfl⟩
  | surface count =>
      exact ⟨fun _ => trivial, fun _ => ⟨_, completePrefixChecked_surface tables text count⟩⟩
  | composite left right ihleft ihright =>
    constructor
    · rintro ⟨after, hafter⟩
      obtain ⟨middle, hmiddle, hright⟩ := Option.bind_eq_some_iff.mp hafter
      refine ⟨(ihleft text).mp ⟨middle, hmiddle⟩, fun other hother => ?_⟩
      obtain rfl : middle = other := Option.some.inj (hmiddle.symm.trans hother)
      exact (ihright middle).mp ⟨after, hright⟩
    · rintro ⟨hleft, hright⟩
      obtain ⟨middle, hmiddle⟩ := (ihleft text).mpr hleft
      obtain ⟨after, hafter⟩ := (ihright middle).mpr (hright middle hmiddle)
      exact ⟨after, Option.bind_eq_some_iff.mpr ⟨middle, hmiddle, hafter⟩⟩

/-- Where nothing underflows, a build that checks nothing leaves the same text. -/
theorem completePrefix_of_checked {count : ComposingCount} {text after : ComposingText}
    (hlen : text.surface.length < 2 ^ 64)
    (hafter : text.completePrefixChecked tables count = some after) :
    after.surface.length ≤ text.surface.length ∧ text.completePrefix tables count = after := by
  induction count generalizing text after with
  | input count =>
    have hle := (completePrefixChecked_input hafter).1
    have hsub := usizeSub_of_lt hlen (hle.trans_lt hlen)
    rw [if_pos hle] at hsub
    simp only [completePrefixChecked, drop_min_length, checkedSub_of_le hle] at hafter
    simp only [completePrefix, drop_min_length, hsub]
    cases hafter
    exact ⟨hle, rfl⟩
  | surface count =>
    rw [completePrefixChecked_surface] at hafter
    cases hafter
    refine ⟨?_, rfl⟩
    show (List.drop _ (text.forceInputCursor tables _).1.surface).length ≤ _
    rw [forceInputCursor_surface, List.length_drop]
    exact Nat.sub_le _ _
  | composite left right ihleft ihright =>
    obtain ⟨middle, hmiddle, hright⟩ := Option.bind_eq_some_iff.mp hafter
    obtain ⟨hshorter, hleft⟩ := ihleft hlen hmiddle
    obtain ⟨hshortest, hdone⟩ := ihright (hshorter.trans_lt hlen) hright
    refine ⟨hshortest.trans hshorter, ?_⟩
    rw [completePrefix, hleft]
    exact hdone

/-- The edits insert no separator that shows something, and nothing into hidden input. -/
def InsertsSafely (unicode : UnicodeTable) (tables : InputTableRegistry) (text : ComposingText)
    (edit : Edit) : Prop :=
  InsertsQuietly unicode tables edit ∧ text.InsertsVisibly unicode edit

/-- A count of any shape is completed without an underflow where none of its input counts leaves
input that converts to more than is shown. A build that does not check for it then leaves the same
text. -/
theorem completes_iff_neverGrows (unicode : UnicodeTable) (tables : InputTableRegistry)
    (text : ComposingText) (h : Operated unicode tables (InsertsSafely unicode tables) text)
    (count : ComposingCount) :
    (text.CompletesExactly tables count ↔ NeverGrows tables text count) ∧
    (text.surface.length < 2 ^ 64 → NeverGrows tables text count →
      text.completePrefixChecked tables count = some (text.completePrefix tables count)) := by
  have hwell := h.wellFormed fun _ _ hsafe => hsafe
  rw [← completePrefixChecked_isSome_iff]
  refine ⟨⟨?_, ?_⟩, ?_⟩
  · rintro ⟨after, hafter, -⟩
    exact ⟨after, hafter⟩
  · rintro ⟨after, hafter⟩
    have hleft := completePrefixChecked_wellFormed hwell hafter
    exact ⟨after, hafter, hleft.cursor_le, hleft.coherent.surface⟩
  · rintro hlength ⟨after, hafter⟩
    rw [hafter, (completePrefix_of_checked hlength hafter).2]

/-- The first key and then a kana of `きょ`. -/
theorem completes_kyo :
    (romajiText kyoTables ['k', 'y', 'o']).CompletesExactly kyoTables
      (.composite (.input 1) (.surface 1)) := by
  have hreach : Operated .kana kyoTables (InsertsSafely .kana kyoTables)
      (new.edit .kana kyoTables (.insertStr ['k', 'y', 'o'] .romanToKana)) :=
    .edit _ .new ⟨fun element hin => quiet_of_piece_ne (by
      obtain ⟨value, -, rfl⟩ := List.mem_map.mp hin
      exact InputPiece.noConfusion), fun _ hhides => hhides.2 rfl⟩
  refine (completes_iff_neverGrows .kana kyoTables _ hreach _).1.mpr ⟨?_, fun _ _ => trivial⟩
  show (convertElements kyoTables _).length ≤ _
  decide +kernel

/-- Romaji in which the end of a rule's key is the key of another rule, with a longer value. -/
def wyeTables : InputTableRegistry :=
  romajiTables [(['w', 'y', 'e'], ['ゑ']), (['y', 'e'], ['い', 'ぇ'])]

/-- `ゑ` without its first key converts to `いぇ`. -/
theorem wye_underflows :
    ¬∀ (unicode : UnicodeTable) (tables : InputTableRegistry) (text : ComposingText)
      (count : ComposingCount), Operated unicode tables (fun _ _ => True) text →
        text.CompletesExactly tables count := by
  intro hall
  have hreach : Operated .kana wyeTables (fun _ _ => True)
      (new.edit .kana wyeTables (.insertStr ['w', 'y', 'e'] .romanToKana)) := .edit _ .new trivial
  obtain ⟨after, hafter, -⟩ := hall .kana wyeTables _ (.input 1) hreach
  have hnone : (new.edit .kana wyeTables
      (.insertStr ['w', 'y', 'e'] .romanToKana)).completePrefixChecked
      wyeTables (.input 1) = none := by decide +kernel
  rw [hnone] at hafter
  cases hafter

end ComposingText

end BeanKey.Input
