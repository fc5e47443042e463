import BeanKey.Input.Run

/-! What an edit leaves on either side of the cursor. -/
namespace BeanKey.Input
variable {unicode : UnicodeTable} {tables : InputTableRegistry}

namespace ComposingText

/-! ### The input at a surface position -/

/-- Forcing the cursor onto any position of the surface cuts the input there: what stands before
the cut and what stands after it convert to the two sides of the surface. -/
theorem cursor_cuts_conversion (tables : InputTableRegistry) (hs : tables.Silent)
    (text : ComposingText) (hsurface : text.surface = convertElements tables text.input)
    (position : Nat) (_hle : position ≤ text.surface.length) :
    let forced := text.forceInputCursor tables position
    forced.1.surface = text.surface ∧ forced.2 ≤ forced.1.input.length ∧
      convertElements tables (forced.1.input.take forced.2) = text.surface.take position ∧
      convertElements tables (forced.1.input.drop forced.2) = text.surface.drop position ∧
      convertElements tables forced.1.input = text.surface := by
  have hcut := forceInputCursor_cut ⟨hsurface, fun element _ => hs.quiet element⟩ position
  exact ⟨hcut.surface, hcut.le, hcut.before, hcut.after,
    hcut.coherent.surface.symm.trans hcut.surface⟩

/-- The input before the cursor, without a frozen separator that an earlier edit left at its end. -/
def inputBefore (tables : InputTableRegistry) (text : ComposingText) : List InputElement :=
  let (forced, inputCursor) := text.forceInputCursor tables text.cursor
  let (input, inputCursor) := dropSeparatorBefore forced.input inputCursor
  input.take inputCursor

theorem convert_inputBefore {text : ComposingText} (h : text.Coherent tables) :
    convertElements tables (text.inputBefore tables) = text.surface.take text.cursor := by
  have hcut := forceInputCursor_cut h text.cursor
  exact (dropSeparatorBefore_spec tables hcut.le).2.2.1.trans hcut.before

theorem convert_separator_if (tables : InputTableRegistry) (before elements : List InputElement)
    (atEnd : Bool) :
    convertElements tables (before ++ if atEnd then elements else elements ++ [.frozenSeparator]) =
      convertElements tables (before ++ elements) := by
  cases atEnd with
  | true => rfl
  | false => rw [if_neg Bool.false_ne_true, ← List.append_assoc, convert_frozenSeparator]

/-! ### Insertions and deletions -/

theorem insert_surface {text : ComposingText} (h : text.WellFormed tables)
    {elements : List InputElement} (hne : elements ≠ []) :
    (text.insert tables elements).surface =
        convertElements tables (text.inputBefore tables ++ elements) ++
          text.surface.drop text.cursor ∧
      (text.insert tables elements).cursor =
        (convertElements tables (text.inputBefore tables ++ elements)).length := by
  have hcut := forceInputCursor_cut h.coherent text.cursor
  have hbefore : text.inputBefore tables = (dropSeparatorBefore
      (text.forceInputCursor tables text.cursor).1.input
      (text.forceInputCursor tables text.cursor).2).1.take (dropSeparatorBefore
        (text.forceInputCursor tables text.cursor).1.input
        (text.forceInputCursor tables text.cursor).2).2 := rfl
  have hposition := (dropSeparatorBefore_spec tables hcut.le).2.1
  simp only [insert, if_neg hne]
  generalize text.forceInputCursor tables text.cursor = forced at hcut hbefore hposition ⊢
  generalize dropSeparatorBefore forced.1.input forced.2 = cut at hbefore hposition ⊢
  have hlen : (cut.1.take cut.2).length = cut.2 := by
    rw [List.length_take, Nat.min_eq_left hposition]
  generalize hadded : (if forced.1.isAtEnd then elements else elements ++ [.frozenSeparator]) =
    added
  have htake : (cut.1.take cut.2 ++ added ++ cut.1.drop cut.2).take (cut.2 + added.length) =
      cut.1.take cut.2 ++ added := List.take_left' (by rw [List.length_append, hlen])
  have hconvert : convertElements tables (cut.1.take cut.2 ++ added) =
      convertElements tables (text.inputBefore tables ++ elements) := by
    rw [← hadded, convert_separator_if, hbefore]
  rw [htake, hconvert, hcut.surface, hcut.cursor]
  refine ⟨rfl, ?_⟩
  have hcommon := commonPrefixLen_le (text.surface.take text.cursor)
    (convertElements tables (text.inputBefore tables ++ elements))
  have hcursor := h.cursor_le
  simp only [List.length_take] at hcommon ⊢
  omega

theorem deleteBackward_surface {text : ComposingText} (h : text.WellFormed tables) (count : Nat) :
    (text.deleteBackward tables count).surface =
        text.surface.take (text.cursor - min count text.cursor) ++ text.surface.drop text.cursor ∧
      (text.deleteBackward tables count).cursor = text.cursor - min count text.cursor := by
  unfold deleteBackward
  by_cases hzero : min count text.cursor = 0
  · simp only [hzero, if_true, Nat.sub_zero, List.take_append_drop, true_and]
  · simp only [if_neg hzero, and_true]
    have hcursor := h.cursor_le
    generalize hcount : min count text.cursor = deleted at hzero ⊢
    have hdeleted : deleted ≤ text.cursor := hcount ▸ min_le_right _ _
    have hlt : text.cursor - deleted < text.surface.length := by omega
    have hcut := forceInputCursor_cut h.coherent (text.cursor - deleted)
    have hboundary := forceInputCursor_boundary h.coherent hlt
    generalize text.forceInputCursor tables (text.cursor - deleted) = targeted at hcut hboundary ⊢
    have hcut' := forceInputCursor_cut hcut.coherent text.cursor
    obtain ⟨hkeeps, hle⟩ := forceInputCursor_keeps hcut.coherent hboundary
      (by omega : text.cursor - deleted < text.cursor)
    generalize targeted.1.forceInputCursor tables text.cursor = forced at hcut' hkeeps hle ⊢
    obtain ⟨hpos, -, hbefore, hafter⟩ := dropSeparatorBefore_spec tables (hle.trans hcut'.le)
    have hquiet : ∀ position,
        ∀ element ∈ (dropSeparatorBefore forced.1.input targeted.2).1.drop position,
        element.Quiet tables := fun _ element hin =>
      hcut'.coherent.quiet element (mem_of_mem_dropSeparatorBefore (List.mem_of_mem_drop hin))
    generalize dropSeparatorBefore forced.1.input targeted.2 = cut at hpos hbefore hafter hquiet ⊢
    -- the two sides of what is taken out
    have hleft : convertElements tables (cut.1.take cut.2) =
        text.surface.take (text.cursor - deleted) := by
      rw [hbefore, hkeeps, hcut.before]
    have hright : convertElements tables (cut.1.drop (forced.2 - (targeted.2 - cut.2))) =
        text.surface.drop text.cursor := by
      have hindex : forced.2 - (targeted.2 - cut.2) = cut.2 + (forced.2 - targeted.2) := by omega
      have hrest : cut.1.drop (cut.2 + (forced.2 - targeted.2)) = forced.1.input.drop forced.2 := by
        rw [← List.drop_drop, hafter, List.drop_drop]
        congr 1
        omega
      rw [hindex, hrest, hcut'.after, hcut.surface]
    by_cases hfirst : cut.2 = 0
    · simp only [hfirst, true_or, if_true, List.take_zero, List.nil_append, Nat.sub_zero]
        at hleft hright ⊢
      rw [hright, ← hleft, convertElements_nil, List.nil_append]
    · by_cases hlast : forced.2 - (targeted.2 - cut.2) = cut.1.length
      · simp only [hfirst, hlast, or_true, if_true, List.drop_length, List.append_nil] at hright ⊢
        rw [hleft, ← hright, convertElements_nil, List.append_nil]
      · simp only [hfirst, hlast, or_false, if_false]
        rw [(ends_frozen _ InputElement.frozenSeparator rfl).convert_append _ (hquiet _),
          convert_frozenSeparator, hleft, hright]

theorem Coherent.wellFormed {text : ComposingText} (h : text.Coherent tables)
    (hend : text.isAtEnd = true) : text.WellFormed tables :=
  ⟨h, (of_decide_eq_true hend).le⟩

theorem insertStr_direct {text : ComposingText} (h : text.WellFormed tables)
    (hend : text.cursor = text.surface.length) {value : Text} (hvalue : value ≠ []) :
    (text.insertStr unicode tables value .direct).surface = text.surface ++
    graphemes unicode value ∧
      (text.insertStr unicode tables value .direct).cursor =
        (text.insertStr unicode tables value .direct).surface.length := by
  have hne : ((graphemes unicode value).map fun value => InputElement.character value .direct) ≠
      [] := by
    rw [ne_eq, List.map_eq_nil_iff, graphemes_eq_nil]
    exact hvalue
  obtain ⟨hsurface, hcursor⟩ := insert_surface h hne
  rw [convert_directCharacters, convert_inputBefore h.coherent, hend, List.take_length]
    at hsurface hcursor
  rw [List.drop_length, List.append_nil] at hsurface
  exact ⟨hsurface, hcursor.trans (congrArg List.length hsurface).symm⟩

theorem deleteBackward_end {text : ComposingText} (h : text.WellFormed tables)
    (hend : text.cursor = text.surface.length) (count : Nat) :
    (text.deleteBackward tables count).surface = text.surface.take (text.surface.length - count) ∧
      (text.deleteBackward tables count).cursor =
        (text.deleteBackward tables count).surface.length := by
  obtain ⟨hsurface, hcursor⟩ := deleteBackward_surface h count
  rw [hend, List.drop_length, List.append_nil] at hsurface
  have hleft : text.surface.length - min count text.surface.length =
      text.surface.length - count := by
    omega
  rw [hleft] at hsurface
  refine ⟨hsurface, ?_⟩
  rw [hcursor, hsurface, List.length_take, hend]
  omega

/-- A deletion at the end takes with the last position what shows nothing behind it. -/
theorem deleteBackward_shows {text : ComposingText} (h : text.Coherent tables)
    (hend : text.isAtEnd = true) (hvisible : ¬text.HidesInput) (count : Nat) :
    ¬(text.deleteBackward tables count).HidesInput := by
  have hcursor : text.cursor = text.surface.length := of_decide_eq_true hend
  rintro ⟨hsurface, hinput⟩
  rw [(deleteBackward_end (h.wellFormed hend) hcursor count).1, List.take_eq_nil_iff] at hsurface
  unfold deleteBackward at hinput
  by_cases hzero : min count text.cursor = 0
  · simp only [hzero, if_true] at hinput
    have hnil : text.surface = [] := by
      rw [← List.length_eq_zero_iff]
      cases hsurface with
      | inl hcount => omega
      | inr hnil => rw [hnil]; rfl
    exact hvisible ⟨hnil, hinput⟩
  · have hall : text.cursor - min count text.cursor = 0 := by
      cases hsurface with
      | inl hcount => omega
      | inr hnil => rw [hnil] at hcursor; simp [hcursor]
    have hpositive : text.cursor ≠ 0 := fun hnone => hzero (by rw [hnone, Nat.min_zero])
    simp [hzero, hall, forceInputCursor, hpositive, hcursor.ge, dropSeparatorBefore] at hinput

theorem deleteForward_surface {text : ComposingText} (h : text.WellFormed tables) (count : Nat) :
    (text.deleteForward tables count).surface = text.surface.take text.cursor ++
        text.surface.drop (text.cursor + min count (text.surface.length - text.cursor)) ∧
      (text.deleteForward tables count).cursor = text.cursor := by
  unfold deleteForward
  by_cases hzero : min count (text.surface.length - text.cursor) = 0
  · simp only [hzero, if_true, Nat.add_zero, List.take_append_drop, true_and]
  · simp only [if_neg hzero]
    have hcursor := h.cursor_le
    generalize hcount : min count (text.surface.length - text.cursor) = moved
    have hmoved : WellFormed tables { text with cursor := text.cursor + moved } :=
      ⟨⟨h.coherent.surface, h.coherent.quiet⟩, by simp only; omega⟩
    have hdeleted := deleteBackward_surface hmoved moved
    have hback : text.cursor + moved - min moved (text.cursor + moved) = text.cursor := by omega
    simp only [hback] at hdeleted
    exact hdeleted

/-! ### Every run -/

theorem usizeSub_of_lt {left right : Nat} (hleft : left < 2 ^ 64) (hright : right < 2 ^ 64) :
    usizeSub left right = if right ≤ left then left - right else 2 ^ 64 + left - right := by
  rw [usizeSub, Nat.mod_eq_of_lt hright]
  split
  · next hle =>
    have hsum : left + (2 ^ 64 - right) = left - right + 2 ^ 64 := by omega
    rw [hsum, Nat.add_mod_right, Nat.mod_eq_of_lt (by omega)]
  · rw [Nat.mod_eq_of_lt (by omega)]
    omega

theorem completePrefix_input_wellFormed {text : ComposingText} (h : text.WellFormed tables)
    {count : Nat} (hold : text.surface.length < 2 ^ 64)
    (hnew : (convertElements tables (text.input.drop count)).length < 2 ^ 64) :
    (text.completePrefix tables (.input count)).WellFormed tables := by
  have hdrop : text.input.drop (min count text.input.length) = text.input.drop count := by
    rcases le_total count text.input.length with hle | hle
    · rw [Nat.min_eq_left hle]
    · rw [Nat.min_eq_right hle, List.drop_length, List.drop_of_length_le hle]
  have hcursor := h.cursor_le
  simp only [completePrefix, hdrop]
  generalize hsurface : convertElements tables (text.input.drop count) = surface at hnew ⊢
  refine ⟨⟨hsurface.symm, fun element hin => h.coherent.quiet element (List.mem_of_mem_drop hin)⟩,
    ?_⟩
  show (if _ then _ else _) ≤ surface.length
  split
  · exact le_rfl
  · rename_i hpositive
    rw [usizeSub_of_lt hold hnew] at hpositive ⊢
    split at hpositive
    · rename_i hshorter
      rw [if_pos hshorter]
      have hmoved : text.cursor - (text.surface.length - surface.length) ≤
          surface.length := by omega
      exact hmoved
    · rename_i hlonger
      have hstart : text.cursor - (2 ^ 64 + text.surface.length - surface.length) = 0 := by omega
      exact absurd hstart hpositive

/-- The texts that a session's operations reach: the edits, and the completion of any count. A
composite count is completed by its parts, and no text in memory is longer than `usize`. -/
inductive Operated (unicode : UnicodeTable) (tables : InputTableRegistry)
    (allowed : ComposingText → Edit → Prop) : ComposingText → Prop
  | new : Operated unicode tables allowed ComposingText.new
  | edit {text : ComposingText} (edit : Edit) : Operated unicode tables allowed text →
      allowed text edit → Operated unicode tables allowed (text.edit unicode tables edit)
  | completeInput {text : ComposingText} (count : Nat) : Operated unicode tables allowed text →
      text.surface.length < 2 ^ 64 →
      (convertElements tables (text.input.drop count)).length < 2 ^ 64 →
      Operated unicode tables allowed (text.completePrefix tables (.input count))

theorem Operated.wellFormed {allowed : ComposingText → Edit → Prop}
    (hallowed : ∀ text edit, allowed text edit →
      InsertsQuietly unicode tables edit ∧ text.InsertsVisibly unicode edit)
    {text : ComposingText} (h : Operated unicode tables allowed text) : text.WellFormed tables := by
  induction h with
  | new => exact new_wellFormed
  | @edit text edit _ hedit ih =>
    exact edit_wellFormed ih edit (hallowed text edit hedit).1 (hallowed text edit hedit).2
  | completeInput count _ hold hnew ih => exact completePrefix_input_wellFormed ih hold hnew

/-- What an edit at the cursor does to the surface, and to nothing else of it. -/
structure EditsExactly (tables : InputTableRegistry) (text : ComposingText) : Prop where
  before : convertElements tables (text.inputBefore tables) = text.surface.take text.cursor
  insert : ∀ elements, elements ≠ [] →
    (text.insert tables elements).surface =
        convertElements tables (text.inputBefore tables ++ elements) ++
          text.surface.drop text.cursor ∧
      (text.insert tables elements).cursor =
        (convertElements tables (text.inputBefore tables ++ elements)).length
  deleteBackward : ∀ count,
    (text.deleteBackward tables count).surface =
        text.surface.take (text.cursor - min count text.cursor) ++ text.surface.drop text.cursor ∧
      (text.deleteBackward tables count).cursor = text.cursor - min count text.cursor
  deleteForward : ∀ count,
    (text.deleteForward tables count).surface = text.surface.take text.cursor ++
        text.surface.drop (text.cursor + min count (text.surface.length - text.cursor)) ∧
      (text.deleteForward tables count).cursor = text.cursor

theorem WellFormed.editsExactly {text : ComposingText} (h : text.WellFormed tables) :
    text.EditsExactly tables where
  before := convert_inputBefore h.coherent
  insert _ hne := insert_surface h hne
  deleteBackward count := deleteBackward_surface h count
  deleteForward count := deleteForward_surface h count

/-- However the text was edited, as long as nothing was inserted into hidden input, the next edit
changes what it says and nothing else of the surface. -/
theorem edits_change_one_side (unicode : UnicodeTable) (tables : InputTableRegistry)
    (hs : tables.Silent) (text : ComposingText)
    (h : Operated unicode tables (InsertsVisibly unicode) text) : text.EditsExactly tables := by
  have hwell := h.wellFormed fun _ _ hvisible => ⟨fun element _ => hs.quiet element, hvisible⟩
  exact hwell.editsExactly

end ComposingText

/-! ### Romaji with some of its rules -/

/-- A registry whose romaji table has these rules and the ending ones. -/
def romajiTables (kana : List (Text × Text)) : InputTableRegistry :=
  { endingTables with romanToKana := .defaultRomanToKana .kana kana }

theorem romajiTables_silent {kana : List (Text × Text)}
    (h : ((romajiTables kana).romanToKana.apply [] .compositionSeparator).1 = []) :
    (romajiTables kana).Silent := by
  intro style table hresolve
  cases style with
  | direct => exact absurd hresolve (by simp [InputTableRegistry.resolve])
  | romanToKana => cases hresolve; exact h
  | mapped table =>
    cases table with
    | defaultRomanToKana => cases hresolve; exact h
    | empty | defaultAzik | defaultKanaJis | defaultKanaUs | named _ => cases hresolve; rfl

namespace ComposingText

def romajiText (tables : InputTableRegistry) (keys : Text) : ComposingText :=
  new.insertStr .kana tables keys .romanToKana

def kyoTables : InputTableRegistry := romajiTables [(['k', 'y', 'o'], ['き', 'ょ'])]

/-- The cut inside what one rule wrote. -/
theorem cursor_cuts_kyo :
    let forced := (romajiText kyoTables ['k', 'y', 'o']).forceInputCursor kyoTables 1
    convertElements kyoTables (forced.1.input.take forced.2) = [['き']] ∧
      convertElements kyoTables (forced.1.input.drop forced.2) = [['ょ']] := by
  have hsilent : kyoTables.Silent := romajiTables_silent (by decide +kernel)
  have hsurface : (romajiText kyoTables ['k', 'y', 'o']).surface = [['き'], ['ょ']] := by
    decide +kernel
  have hconvert : (romajiText kyoTables ['k', 'y', 'o']).surface =
      convertElements kyoTables (romajiText kyoTables ['k', 'y', 'o']).input := by decide +kernel
  have hcuts := cursor_cuts_conversion kyoTables hsilent _ hconvert 1 (by rw [hsurface]; decide)
  rw [hsurface] at hcuts
  exact ⟨hcuts.2.2.1, hcuts.2.2.2.1⟩

/-- `x` and `n` typed into a lone separator, with the cursor between them. -/
def splitText : ComposingText :=
  (((new.edit .kana endingTables (.insert [⟨.compositionSeparator, .romanToKana⟩])).edit .kana
    endingTables (.insertStr ['x', 'n'] .romanToKana)).edit .kana endingTables (.moveCursor (-1)))

/-- Once `x` is deleted, `n` is shown as `ん`. -/
theorem deletion_changes_other_side :
    ¬∀ (unicode : UnicodeTable) (tables : InputTableRegistry) (text : ComposingText),
      tables.Silent → Operated unicode tables (fun _ _ => True) text →
      text.EditsExactly tables := by
  intro hall
  have hreach : Operated .kana endingTables (fun _ _ => True) splitText :=
    .edit _ (.edit _ (.edit _ .new trivial) trivial) trivial
  have hdeleted :=
    ((hall .kana endingTables splitText endingTables_silent hreach).deleteBackward 1).1
  exact absurd hdeleted (by decide +kernel)

/-- Typing `n` and `a` and moving between them meets the conditions. -/
theorem edits_change_one_side_of_typing :
    endingTables.Silent ∧
      ∃ text, Operated .kana endingTables (InsertsVisibly .kana) text ∧ text.cursor = 1 ∧
        text.surface = [['n'], ['a']] ∧ text.EditsExactly endingTables := by
  have hreach : Operated .kana endingTables (InsertsVisibly .kana)
      ((new.edit .kana endingTables (.insertStr ['n', 'a'] .direct)).edit .kana endingTables
        (.moveCursor (-1))) :=
    .edit _ (.edit _ .new fun _ h => h.2 rfl) fun h => absurd rfl h
  exact ⟨endingTables_silent, _, hreach, by decide +kernel, by decide +kernel,
    edits_change_one_side .kana endingTables endingTables_silent _ hreach⟩

end ComposingText

end BeanKey.Input
