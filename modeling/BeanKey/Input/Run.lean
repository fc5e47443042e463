import BeanKey.Input.Editing

/-! Runs of edits on one composing text, under one registry of tables. -/
namespace BeanKey.Input
variable {unicode : UnicodeTable} {tables : InputTableRegistry}

def ComposingCount.countsSurface : ComposingCount → Bool
  | .input _ => false
  | .surface _ => true
  | .composite left right => left.countsSurface && right.countsSurface

inductive Edit where
  | insert (elements : List InputElement)
  | insertStr (value : Text) (inputStyle : InputStyle)
  | deleteForward (count : Nat)
  | deleteBackward (count : Nat)
  | moveCursor (count : Int)
  | completePrefix (count : { count : ComposingCount // count.countsSurface })
  | prefixToCursor
  | stop

namespace ComposingText

def edit (unicode : UnicodeTable) (tables : InputTableRegistry) (text : ComposingText) :
    Edit → ComposingText
  | .insert elements => text.insert tables elements
  | .insertStr value inputStyle => text.insertStr unicode tables value inputStyle
  | .deleteForward count => text.deleteForward tables count
  | .deleteBackward count => text.deleteBackward tables count
  | .moveCursor count => (text.moveCursor count).1
  | .completePrefix count => text.completePrefix tables count
  | .prefixToCursor => text.prefixToCursor tables
  | .stop => text.stop

def insertedBy (unicode : UnicodeTable) : Edit → List InputElement
  | .insert elements => elements
  | .insertStr value inputStyle =>
    (graphemes unicode value).map fun value => .character value inputStyle
  | _ => []

/-- The edit does not insert into a text that shows nothing but still holds input. -/
def InsertsVisibly (unicode : UnicodeTable) (text : ComposingText) (edit : Edit) : Prop :=
  insertedBy unicode edit ≠ [] → ¬text.HidesInput

def InsertsQuietly (unicode : UnicodeTable) (tables : InputTableRegistry) (edit : Edit) : Prop :=
  ∀ element ∈ insertedBy unicode edit, element.Quiet tables

def Types (unicode : UnicodeTable) (edit : Edit) : Prop :=
  ∀ element ∈ insertedBy unicode edit, element.piece ≠ .compositionSeparator

theorem Types.insertsQuietly {edit : Edit} (h : Types unicode edit) :
    InsertsQuietly unicode tables edit := fun element hin => quiet_of_piece_ne (h element hin)

/-- The texts that edits reach from the empty one, where `allowed` says which edits
each text may take. -/
inductive Reached (unicode : UnicodeTable) (tables : InputTableRegistry)
    (allowed : ComposingText → Edit → Prop) : ComposingText → Prop
  | new : Reached unicode tables allowed ComposingText.new
  | edit {text : ComposingText} (edit : Edit) : Reached unicode tables allowed text →
      allowed text edit → Reached unicode tables allowed (text.edit unicode tables edit)

abbrev Reachable (unicode : UnicodeTable) (tables : InputTableRegistry) :
    ComposingText → Prop :=
  Reached unicode tables fun _ _ => True

theorem completePrefix_wellFormed (count : ComposingCount)
    (hcount : count.countsSurface = true) {text : ComposingText} (h : text.WellFormed tables) :
    (text.completePrefix tables count).WellFormed tables := by
  induction count generalizing text with
  | input count => exact absurd hcount (by simp [ComposingCount.countsSurface])
  | surface count => exact completePrefix_surface_wellFormed h count
  | composite left right ihleft ihright =>
    obtain ⟨hleft, hright⟩ := (Bool.and_eq_true _ _).mp hcount
    exact ihright hright (ihleft hleft h)

theorem edit_wellFormed {text : ComposingText} (h : text.WellFormed tables) (edit : Edit)
    (hquiet : InsertsQuietly unicode tables edit) (hvisible : text.InsertsVisibly unicode edit) :
    (text.edit unicode tables edit).WellFormed tables := by
  cases edit with
  | insert elements => exact insert_wellFormed h hquiet hvisible
  | insertStr value inputStyle => exact insert_wellFormed h hquiet hvisible
  | deleteForward count => exact deleteForward_wellFormed h count
  | deleteBackward count => exact deleteBackward_wellFormed h count
  | moveCursor count => exact moveCursor_wellFormed h count
  | completePrefix count => exact completePrefix_wellFormed count count.2 h
  | prefixToCursor => exact prefixToCursor_wellFormed h
  | stop => exact new_wellFormed

theorem Reached.wellFormed {allowed : ComposingText → Edit → Prop}
    (hallowed : ∀ text edit, allowed text edit →
      InsertsQuietly unicode tables edit ∧ text.InsertsVisibly unicode edit)
    {text : ComposingText} (h : Reached unicode tables allowed text) : text.WellFormed tables := by
  induction h with
  | new => exact new_wellFormed
  | @edit text edit _ hedit ih =>
    exact edit_wellFormed ih edit (hallowed text edit hedit).1 (hallowed text edit hedit).2

/-- However the text was edited, as long as nothing was inserted into hidden input, the
cursor stands in the surface and the surface is the conversion of all the input. -/
theorem surface_is_conversion (unicode : UnicodeTable) (tables : InputTableRegistry)
    (hs : tables.Silent) (text : ComposingText)
    (h : Reached unicode tables (InsertsVisibly unicode) text) :
    text.cursor ≤ text.surface.length ∧ text.surface = convertElements tables text.input := by
  have hwell := h.wellFormed fun _ _ hvisible => ⟨fun element _ => hs.quiet element, hvisible⟩
  exact ⟨hwell.cursor_le, hwell.coherent.surface⟩

end ComposingText

/-! ### The ending rules of romaji, and typing into a lone separator -/

def InputTable.defaultRomanToKana (unicode : UnicodeTable) (kana : List (Text × Text)) :
    InputTable :=
  .new <|
    (kana.map fun (key, value) =>
      ⟨(graphemes unicode key).map fun value => .piece (.character value),
        (graphemes unicode value).map .character⟩) ++
    [⟨[.piece .compositionSeparator], []⟩,
      ⟨[.piece (.character ['n']), .piece .compositionSeparator], [.character ['ん']]⟩,
      ⟨[.piece (.character ['n']), .any], [.character ['ん'], .any]⟩]

def endingTables : InputTableRegistry where
  romanToKana := .defaultRomanToKana .kana []
  azik := .empty
  kanaJis := .empty
  kanaUs := .empty
  custom := fun _ => none

theorem endingTables_silent : endingTables.Silent := by
  have hroman : (endingTables.romanToKana.apply [] .compositionSeparator).1 = [] := by
    decide +kernel
  intro style table hresolve
  cases style with
  | direct => exact absurd hresolve (by simp [InputTableRegistry.resolve])
  | romanToKana => cases hresolve; exact hroman
  | mapped table =>
    cases table with
    | defaultRomanToKana => cases hresolve; exact hroman
    | empty | defaultAzik | defaultKanaJis | defaultKanaUs | named _ => cases hresolve; rfl

namespace ComposingText

def loneSeparatorText : ComposingText :=
  ((new.insert endingTables [⟨.compositionSeparator, .romanToKana⟩]).insert endingTables
    [.character ['n'] .romanToKana])

/-- The surface shows `n`, but the input converts to `ん`. -/
theorem lone_separator_drifts :
    ¬∀ (unicode : UnicodeTable) (tables : InputTableRegistry) (text : ComposingText),
      tables.Silent → Reachable unicode tables text →
        text.cursor ≤ text.surface.length ∧ text.surface = convertElements tables text.input := by
  intro hall
  have hreach : Reachable .kana endingTables loneSeparatorText :=
    .edit (.insert [.character ['n'] .romanToKana])
      (.edit (.insert [⟨.compositionSeparator, .romanToKana⟩]) .new trivial) trivial
  have hsurface := (hall .kana endingTables loneSeparatorText endingTables_silent hreach).2
  exact absurd hsurface (by decide +kernel)

/-- Typing `n`, moving before it and typing `a` meets the conditions. -/
theorem surface_is_conversion_of_typing :
    endingTables.Silent ∧
      ∃ text, Reached .kana endingTables (InsertsVisibly .kana) text ∧ text.surface =
        [['a'], ['n']] ∧
        text.cursor ≤ text.surface.length ∧ text.surface =
          convertElements endingTables text.input := by
  have hfirst : Reached .kana endingTables (InsertsVisibly .kana)
      (new.edit .kana endingTables (.insertStr ['n'] .direct)) :=
    .edit _ .new fun _ h => h.2 rfl
  have hreach : Reached .kana endingTables (InsertsVisibly .kana)
      (((new.edit .kana endingTables (.insertStr ['n'] .direct)).edit .kana endingTables
        (.moveCursor (-1))).edit .kana endingTables (.insertStr ['a'] .direct)) :=
    .edit _ (.edit _ hfirst fun h => absurd rfl h) fun _ h => absurd h.1 (by decide +kernel)
  exact ⟨endingTables_silent, _, hreach, by decide +kernel,
    surface_is_conversion .kana endingTables endingTables_silent _ hreach⟩

end ComposingText

end BeanKey.Input
