import BeanKey.Engine.Offsets
import BeanKey.Macos.Session

/-! What an input session displays: the rows of its panel, and the text marked in its client. -/
namespace BeanKey.Macos
open Engine Protocol Client

/-! ### The panel -/

namespace CandidatePanel
variable {panel : CandidatePanel} {state : StateResponse} {session : SessionState}

def chosen (panel : CandidatePanel) (state : StateResponse) : Option CandidateRow :=
  if panel.typoCandidates = [] then
    (state.candidates[state.selectedCandidate.toNat]?).map candidateRow
  else (panel.typoCandidates[panel.typoSelection]?).map typoRow

/-- A row shows what is selected by its index, and in an open panel the highlighted row is the one
of what is selected. -/
structure Tidy (panel : CandidatePanel) (state : StateResponse) : Prop where
  page : panel.rows.length = panel.indices.length ∧ panel.rows.length ≤ pageSize
  candidates : panel.typoCandidates = [] → ∀ (row index : Nat), panel.indices[row]? = some index →
    ∃ shown ∈ state.candidates, shown.index = index ∧ panel.rows[row]? = some (candidateRow shown)
  typos : panel.typoCandidates ≠ [] → ∀ (row index : Nat), panel.indices[row]? = some index →
    ∃ correction, panel.typoCandidates[index]? = some correction ∧
      panel.rows[row]? = some (typoRow correction)
  menu : panel.typoCandidates ≠ [] → panel.learning = false ∧ panel.typo = false
  typoSelection : panel.typoCandidates ≠ [] → panel.typoSelection < panel.typoCandidates.length
  selected : panel.selecting = true → panel.rows ≠ [] → ∃ (row : Nat) (shown : CandidateRow),
    panel.selected = (row : Int) ∧ panel.rows[row]? = some shown ∧ panel.chosen state = some shown

theorem tidy_cleared (state : StateResponse) : cleared.Tidy state where
  page := ⟨rfl, Nat.zero_le _⟩
  candidates := by simp [cleared]
  typos := by simp [cleared]
  menu := by simp [cleared]
  typoSelection := by simp [cleared]
  selected := by simp [cleared]

theorem shownCandidates_length (state : StateResponse) (windowStart : Nat) :
    (shownCandidates state windowStart).length ≤ pageSize := by
  unfold shownCandidates
  split
  · exact Nat.zero_le _
  · exact (Window.rows_length_le _).trans (by decide)
  · exact Window.rows_length_le _

theorem mem_shownCandidates {windowStart : Nat} {candidate : Protocol.Candidate}
    (h : candidate ∈ shownCandidates state windowStart) : candidate ∈ state.candidates := by
  unfold shownCandidates at h
  split at h
  · cases h
  · exact Window.mem_of_mem_rows h
  · exact Window.mem_of_mem_rows h

theorem windowOf_shows (panel : CandidatePanel) (hwindow : state.candidateWindow = .selecting)
    (hselected : 0 ≤ state.selectedCandidate) :
    panel.windowOf state ≤ state.selectedCandidate.toNat ∧
      state.selectedCandidate.toNat < panel.windowOf state + pageSize := by
  unfold windowOf
  rw [if_pos hwindow]
  dsimp only
  rw [if_pos hselected]
  exact Window.reveal_shows _ _ (by decide)

theorem showState_tidy (panel : CandidatePanel) (h : Shows session state) :
    (panel.showState state).Tidy state where
  page := by
    simp only [showState, List.length_map, true_and]
    exact shownCandidates_length state _
  candidates := by
    intro _ row index hindex
    simp only [showState, List.getElem?_map, Option.map_eq_some_iff] at hindex ⊢
    obtain ⟨shown, hshown, rfl⟩ := hindex
    exact ⟨shown, mem_shownCandidates (List.mem_of_getElem? hshown), rfl, shown, hshown, rfl⟩
  typos := fun hne => absurd rfl hne
  menu := fun hne => absurd rfl hne
  typoSelection := fun hne => absurd rfl hne
  selected := by
    intro hselecting hrows
    have hwindow : state.candidateWindow = .selecting := of_decide_eq_true hselecting
    have hne : state.candidates ≠ [] := by
      intro hnil
      simp [showState, shownCandidates, hwindow, hnil, Window.rows] at hrows
    obtain ⟨hpos, hlt⟩ := h.selected hwindow hne
    have hshows := windowOf_shows panel hwindow hpos
    have hrow : state.selectedCandidate.toNat < state.candidates.length := by omega
    refine ⟨state.selectedCandidate.toNat - panel.windowOf state,
      candidateRow state.candidates[state.selectedCandidate.toNat], ?_, ?_, ?_⟩
    · show state.selectedCandidate - (panel.windowOf state : Int) = _
      omega
    · simp only [showState, shownCandidates, hwindow]
      rw [List.getElem?_map, Window.getElem?_rows _ (by omega),
        show panel.windowOf state + (state.selectedCandidate.toNat - panel.windowOf state) =
          state.selectedCandidate.toNat by omega, List.getElem?_eq_getElem hrow, Option.map_some]
    · simp [chosen, showState, List.getElem?_eq_getElem hrow]

/-! ### The typo list -/

theorem getElem?_typoRows {start row : Nat} (typos : List TypoCorrectionCandidate)
    (hrow : row < pageSize) :
    (Window.rows pageSize start typos.zipIdx)[row]? =
      (typos[start + row]?).map fun correction => (correction, start + row) := by
  rw [Window.getElem?_rows _ hrow, List.getElem?_zipIdx]
  cases typos[start + row]? <;> simp

theorem displayTypos_tidy (state : StateResponse)
    (hselection : panel.typoSelection < panel.typoCandidates.length)
    (hwindow : panel.windowStart ≤ panel.typoSelection ∧
      panel.typoSelection < panel.windowStart + pageSize) : panel.displayTypos.Tidy state where
  page := by
    simp only [displayTypos, List.length_map, true_and]
    exact Window.rows_length_le _
  candidates := by
    intro hnil
    rw [show panel.typoCandidates = [] from hnil] at hselection
    exact absurd hselection (Nat.not_lt_zero _)
  typos := by
    intro _ row index hindex
    simp only [displayTypos, List.getElem?_map, Option.map_eq_some_iff] at hindex ⊢
    obtain ⟨shown, hshown, rfl⟩ := hindex
    refine ⟨shown.1, ?_, shown, hshown, rfl⟩
    exact List.mk_mem_zipIdx_iff_getElem?.mp (Window.mem_of_mem_rows (List.mem_of_getElem? hshown))
  menu := fun _ => ⟨rfl, rfl⟩
  typoSelection := fun _ => hselection
  selected := by
    intro _ _
    have hne : panel.typoCandidates ≠ [] := List.ne_nil_of_length_pos (by omega)
    refine ⟨panel.typoSelection - panel.windowStart,
      typoRow panel.typoCandidates[panel.typoSelection], ?_, ?_, ?_⟩
    · show (panel.typoSelection : Int) - (panel.windowStart : Int) = _
      omega
    · simp only [displayTypos, List.getElem?_map]
      rw [getElem?_typoRows _ (by omega), show panel.windowStart +
        (panel.typoSelection - panel.windowStart) = panel.typoSelection by omega,
        List.getElem?_eq_getElem hselection]
      rfl
    · simp [chosen, displayTypos, hne, List.getElem?_eq_getElem hselection]

theorem showTypos_tidy (panel : CandidatePanel) (state : StateResponse)
    {typos : List TypoCorrectionCandidate} (hne : typos ≠ []) :
    (panel.showTypos typos).Tidy state :=
  displayTypos_tidy state (List.length_pos_iff.mpr hne) ⟨le_rfl, Nat.succ_pos 8⟩

theorem moveTypoSelection_tidy (state : StateResponse) (hne : panel.typoCandidates ≠ [])
    (hselection : panel.typoSelection < panel.typoCandidates.length) (forward : Bool) :
    (panel.moveTypoSelection forward).Tidy state := by
  have hpos := List.length_pos_iff.mpr hne
  refine displayTypos_tidy state ?_ (Window.reveal_shows _ _ (by decide))
  dsimp only
  split <;> omega

end CandidatePanel

/-! ### The text client -/

/-- Every offset inside a text can be counted in code units. -/
theorem utf16Offset_encode {text : Text} {scalar : Nat} (h : scalar ≤ text.length) :
    ∃ offset, utf16Offset (some (Utf16.encode text)) scalar = some offset := by
  refine ⟨(Utf16.encode (text.take scalar)).length, (utf16Offset_eq_some_iff _ _ _).mpr ?_⟩
  refine ⟨text.take scalar, by simpa using h, ?_, rfl⟩
  rw [Utf16.encode, Utf16.encode]
  conv_rhs => rw [← List.take_append_drop scalar text, List.flatMap_append]
  exact List.prefix_append _ _

/-- A text client of the system, with what it shows. `insertText` puts a text in the place of what
is marked, and `setMarkedText` marks another text instead, with the cursor inside of it. -/
structure TextClient where
  Field : Type
  insertText : Field → Text → Field
  setMarkedText : Field → MarkedText → Nat → Field
  marked : Field → MarkedText × Nat
  marked_insertText : ∀ field text, marked (insertText field text) = (.plain [], 0)
  marked_setMarkedText : ∀ field text cursor, cursor ≤ text.underlines.length →
    marked (setMarkedText field text cursor) = (text, cursor)

namespace TextClient
variable {client : TextClient} {field : client.Field} {calls later : List ClientCall}

def call (client : TextClient) (field : client.Field) : ClientCall → client.Field
  | .insertText text => client.insertText field text
  | .validAttributesForMarkedText _ => field
  | .setMarkedText marked cursor => client.setMarkedText field marked cursor

def after (client : TextClient) (field : client.Field) (calls : List ClientCall) : client.Field :=
  calls.foldl client.call field

theorem after_append (client : TextClient) (field : client.Field) (calls later : List ClientCall) :
    client.after field (calls ++ later) = client.after (client.after field calls) later :=
  List.foldl_append

def Blank (client : TextClient) (field : client.Field) : Prop :=
  client.marked field = (.plain [], 0)

theorem blank_cleared (field : client.Field) :
    client.Blank (client.after field [.setMarkedText (.plain []) 0]) :=
  client.marked_setMarkedText field _ 0 (Nat.zero_le _)

theorem blank_inserted (field : client.Field) (text : Text) :
    client.Blank (client.after field [.insertText text]) :=
  client.marked_insertText field text

end TextClient

/-- What a text client answered last, when it was asked for underlines. -/
def takesUnderlines (calls : List ClientCall) : Bool :=
  calls.foldl (fun last call =>
    match call with
    | .validAttributesForMarkedText underlines => underlines
    | _ => last) false

/-- The texts that a text client was given for good. -/
def insertedTexts (calls : List ClientCall) : List Text :=
  calls.filterMap fun call =>
    match call with
    | .insertText text => some text
    | _ => none

def InputSession.inserted (session : InputSession) : List Text := insertedTexts session.calls

/-- These texts once the client is given another one, unless that is empty. -/
def InputSession.givenTexts (session : InputSession) (commit : Text) : List Text :=
  if commit = [] then session.inserted else session.inserted ++ [commit]

theorem insertedTexts_given {session : InputSession} {later : List ClientCall} {commit : Text}
    (h : insertedTexts later = if commit = [] then [] else [commit]) :
    insertedTexts (session.calls ++ later) = session.givenTexts commit := by
  rw [insertedTexts, List.filterMap_append]
  change session.inserted ++ insertedTexts later = _
  rw [h, InputSession.givenTexts]
  split
  · exact List.append_nil _
  · rfl

def underlinesOf (underlines : Bool) (length highlighted : Nat) : List (Option UnderlineStyle) :=
  if underlines then
    List.replicate highlighted (some .thick) ++ List.replicate (length - highlighted) (some .single)
  else List.replicate length none

theorem underlinesOf_length {length highlighted : Nat} (underlines : Bool)
    (h : highlighted ≤ length) :
    (underlinesOf underlines length highlighted).length = length := by
  unfold underlinesOf
  split
  · simp only [List.length_append, List.length_replicate]
    omega
  · exact List.length_replicate

/-- What is marked after calls is the preedit of a state, with its cursor and its underlines. -/
def Displays (calls : List ClientCall) (state : StateResponse) : Prop :=
  ∃ cursor highlighted,
    utf16Offset (some (Utf16.encode state.preedit)) state.preeditCursor = some cursor ∧
    utf16Offset (some (Utf16.encode state.preedit)) state.highlightedPreeditLength =
      some highlighted ∧
    ∀ (client : TextClient) (field : client.Field), client.Blank field →
      client.marked (client.after field calls) =
        (⟨state.preedit, underlinesOf (takesUnderlines calls) (Utf16.encode state.preedit).length
          highlighted⟩, cursor)

theorem markedPreedit_eq (preedit : Text) (underlines : Bool) (highlighted : Nat) :
    markedPreedit preedit underlines highlighted =
      ⟨preedit, underlinesOf underlines (Utf16.encode preedit).length highlighted⟩ := by
  unfold markedPreedit underlinesOf
  cases underlines with
  | false => rfl
  | true =>
    by_cases hnone : highlighted = 0
    · simp [hnone, MarkedText.addUnderline, MarkedText.plain]
    · simp [hnone, MarkedText.addUnderline, MarkedText.plain]

theorem utf16Offset_le {units : Utf16.Units} {scalar offset : Nat}
    (h : utf16Offset (some units) scalar = some offset) : offset ≤ units.length := by
  obtain ⟨text, -, hbegins, rfl⟩ := (utf16Offset_eq_some_iff _ _ _).mp h
  exact hbegins.length_le

section
variable {calls : List ClientCall} {before state : StateResponse}

theorem displays_of_blank (hblank : ∀ (client : TextClient) (field : client.Field),
      client.Blank field → client.Blank (client.after field calls))
    (hpreedit : state.preedit = []) (hinside : Inside state) : Displays calls state := by
  have hcursor := hinside.cursor
  have hhighlighted := hinside.highlighted
  rw [hpreedit, List.length_nil, Nat.le_zero] at hcursor hhighlighted
  refine ⟨0, 0, by rw [hcursor]; rfl, by rw [hhighlighted]; rfl, fun client field hfield => ?_⟩
  rw [hblank client field hfield, hpreedit]
  cases takesUnderlines calls <;> rfl

theorem Displays.blank (h : Displays calls state) (hpreedit : state.preedit = [])
    (client : TextClient) (field : client.Field) (hfield : client.Blank field) :
    client.Blank (client.after field calls) := by
  obtain ⟨cursor, highlighted, hcursor, hhighlighted, hmarked⟩ := h
  rw [hpreedit] at hcursor hhighlighted
  have hzero : cursor = 0 := Nat.le_zero.mp (utf16Offset_le hcursor)
  have hnone : highlighted = 0 := Nat.le_zero.mp (utf16Offset_le hhighlighted)
  unfold TextClient.Blank
  rw [hmarked client field hfield, hpreedit, hzero, hnone]
  cases takesUnderlines calls <;> rfl

/-- A state whose offsets lie inside is never refused, and what it asks for displays it. -/
theorem Displays.applyText (h : Displays calls before) (hinside : Inside state)
    (underlines : Bool) :
    ∃ later, applyText state underlines (before.preedit ≠ []) = some later ∧
      Displays (calls ++ later) state ∧
      insertedTexts later = if state.commit = [] then [] else [state.commit] := by
  obtain ⟨cursor, hcursor⟩ := utf16Offset_encode hinside.cursor
  obtain ⟨highlighted, hhighlighted⟩ := utf16Offset_encode hinside.highlighted
  simp only [Macos.applyText, hcursor, hhighlighted, Option.bind_eq_bind, Option.bind_some]
  refine ⟨_, rfl, ?_, ?_⟩
  · by_cases hpreedit : state.preedit = []
    · refine displays_of_blank (fun client field hfield => ?_) hpreedit hinside
      simp only [hpreedit, ne_eq, not_true_eq_false, if_false]
      by_cases hcommit : state.commit = []
      · by_cases hbefore : before.preedit = []
        · simpa [hcommit, hbefore] using h.blank hbefore client field hfield
        · simpa [hcommit, hbefore, TextClient.after_append] using client.blank_cleared _
      · simpa [hcommit, TextClient.after_append] using client.blank_inserted _ state.commit
    · refine ⟨cursor, highlighted, hcursor, hhighlighted, fun client field _ => ?_⟩
      have hinsideUnits := utf16Offset_le hhighlighted
      have hlast (given : List ClientCall) (marked : MarkedText) :
          takesUnderlines (calls ++ (given ++
            [.validAttributesForMarkedText underlines, .setMarkedText marked cursor])) =
              underlines := by
        simp [takesUnderlines]
      simp only [ne_eq, hpreedit, not_false_eq_true, if_true, hlast]
      rw [TextClient.after_append, TextClient.after_append, markedPreedit_eq]
      refine client.marked_setMarkedText _ _ _ ?_
      rw [underlinesOf_length _ hinsideUnits]
      exact utf16Offset_le hcursor
  · by_cases hcommit : state.commit = [] <;> by_cases hpreedit : state.preedit = [] <;>
      by_cases hbefore : before.preedit = [] <;> simp [insertedTexts, hcommit, hpreedit, hbefore]

end

end BeanKey.Macos
