import BeanKey.Engine.Answered
import BeanKey.Input.Editing

/-! What a handler does to a session: one inversion for every handler, which the invariants
of the presentation and of the marked text and the fate of the composition are read off. -/
namespace BeanKey.Engine
open Session Input Protocol
variable {config : EngineConfig} {services : Services}

namespace SessionState

/-- The candidates a key can commit: the shown ones, and the representations of what is
selected. -/
def Offers (config : EngineConfig) (session : SessionState) (candidate : Session.Candidate) :
    Prop :=
  candidate ∈ session.displayCandidates ∨
    candidate ∈ (session.conversion.desktopAdditionalCandidates config.tables
      (if session.inputMode = .selecting then
        session.displayCandidates[session.selectedCandidate]? else none)).map Prod.fst

/-- The text a key leaves where the composition goes on: the one before it, its cursor moved,
or edited as this key edits. -/
inductive GoesOn (config : EngineConfig) (key : Option KeyEvent) (before : SessionState) :
    ComposingText → Prop
  | kept : GoesOn config key before before.composing
  | moved (event : KeyEvent) (cursor : Nat) : key = some event →
      event.action = .left ∨ event.action = .right → event.shift = true →
      GoesOn config key before { before.composing with cursor }
  | typed (event : KeyEvent) : key = some event → event.action = .input →
      GoesOn config key before (insertEvent config before event).composing
  | spaced : key.map KeyEvent.action = some .space → before.inputLanguage = .english →
      GoesOn config key before (insertEnglishSpace config before).composing
  | separated : key.map KeyEvent.action = some .space ∨ key.map KeyEvent.action = some .down →
      GoesOn config key before (before.separated config).composing
  | shortened : key.map KeyEvent.action = some .backspace →
      (deleteLast config before).1.composing.isEmpty = false →
      GoesOn config key before (deleteLast config before).1.composing
  | completed (prediction : InputPrediction) (accepted : SessionState) :
      key.map KeyEvent.action = some .tab → before.inputMode = .composing →
      before.prediction = some prediction →
      acceptPrediction config before prediction = some accepted →
      accepted.composing.isEmpty = false →
      GoesOn config key before accepted.composing

def committingKeys : List UserAction := [.enter, .startUnicodeInput]

def selectingKeys : List UserAction :=
  [.enter, .eisu, .right, .input, .halfWidthRoman, .fullWidthRoman, .halfWidthKatakana, .katakana,
    .hiragana]

/-- What becomes of a composition at a key. It goes on, and something of it is left; it is committed
as it is marked, and what is typed over it starts a new one; a candidate is committed and leaves the
rest; Escape cancels it; or its last character is deleted. -/
inductive Fate (config : EngineConfig) (key : Option KeyEvent) (before : SessionState)
    (commit : Text) : ComposingText → Prop
  | goesOn {after : ComposingText} : commit = [] → GoesOn config key before after →
      (after.surface ≠ [] ∨ after.input ≠ []) → Fate config key before commit after
  | committed (event : KeyEvent) : key = some event → event.action ∈ committingKeys →
      commit = before.currentMarkedText → Fate config key before commit .new
  | typedOver (event : KeyEvent) : key = some event → event.action = .input →
      commit = before.currentMarkedText →
      Fate config key before commit (insertEvent config before.reset event).composing
  | selected (candidate : Session.Candidate) :
      (∀ event, key = some event → event.action ∈ selectingKeys) →
      before.Offers config candidate → commit = candidate.text →
      Fate config key before commit
        (before.conversion.selectCandidateValue config.tables candidate).composing
  | cancelled : key.map KeyEvent.action = some .escape → before.inputMode = .composing →
      commit = [] → Fate config key before commit .new
  | deleted : key.map KeyEvent.action = some .backspace →
      (deleteLast config before).1.composing.isEmpty = true → commit = [] →
      Fate config key before commit .new

/-- The shown lists, what they were computed from and what is read off them. -/
structure SameLists (before after : SessionState) : Prop where
  conversion : after.conversion = before.conversion
  displayCandidates : after.displayCandidates = before.displayCandidates
  candidateRemainders : after.candidateRemainders = before.candidateRemainders
  candidateAnnotations : after.candidateAnnotations = before.candidateAnnotations
  previewCandidateIndex : after.previewCandidateIndex = before.previewCandidateIndex
  additionalCandidateCount : after.additionalCandidateCount = before.additionalCandidateCount
  segmentSurfaceCount : after.segmentSurfaceCount = before.segmentSurfaceCount
  liveCandidate : after.liveCandidate = before.liveCandidate ∨ after.liveCandidate = none

inductive ModeChange (config : EngineConfig) (action : Option UserAction) :
    InputMode → InputMode → Prop
  | same (mode : InputMode) : ModeChange config action mode mode
  | closePreview : ModeChange config action .previewing .composing
  | closeLive : config.liveConversion = true → ModeChange config action .selecting .composing
  | closeSelection : action = some .escape → config.liveConversion = false →
      ModeChange config action .selecting .previewing
  | unicode {mode : InputMode} : mode = .none ∨ mode = .unicode →
      ModeChange config action mode .unicode

/-- While a candidate is selected, its index stays, or is one of the list. -/
def Selects (before after : SessionState) : Prop :=
  after.inputMode = .selecting →
    after.selectedCandidate = before.selectedCandidate ∨
      (0 < after.displayCandidates.length →
        after.selectedCandidate < after.displayCandidates.length)

structure Cleared (session : SessionState) : Prop where
  displayCandidates : session.displayCandidates = []
  candidateRemainders : session.candidateRemainders = []
  candidateAnnotations : session.candidateAnnotations = []
  previewCandidateIndex : session.previewCandidateIndex = none
  additionalCandidateCount : session.additionalCandidateCount = 0
  liveCandidate : session.liveCandidate = none
  fullComposing : session.conversion.fullComposing = none
  inputMode : session.inputMode ≠ .previewing
  idle : session.inputMode = .none ∨ session.inputMode = .unicode → session.composing.isEmpty = true

/-- Space in Composing shows the preview of the whole text, where the selection is not opened
at once. -/
def SpacePreviews (config : EngineConfig) (action : Option UserAction) (before : SessionState) :
    Prop :=
  action = some .space ∧ before.inputMode = .composing ∧ before.inputLanguage ≠ .english ∧
    config.liveConversion = false

structure Requested (config : EngineConfig) (action : Option UserAction)
    (before target middle after : SessionState) : Prop where
  answered : Answered config target middle
  same : SameLists middle after
  selects : after.inputMode = .selecting →
    after.selectedCandidate = 0 ∨
      after.selectedCandidate = middle.selectedCandidate ∧ target.selectedCandidate = 0
  idle : after.inputMode = .none ∨ after.inputMode = .unicode →
    after.inputMode = before.inputMode ∧ target.composing = before.composing
  previews : after.inputMode = .previewing → target.ConvertsWhole ∨
    (before.inputMode = .previewing ∨ SpacePreviews config action before) ∧
      (before.ConvertsWhole → target.ConvertsWhole)

inductive Effect (config : EngineConfig) (services : Services) (action : Option UserAction)
    (before : SessionState) : SessionState → Prop
  | kept {after : SessionState} : SameLists before after →
      ModeChange config action before.inputMode after.inputMode → Selects before after →
      Effect config services action before after
  | cleared {after : SessionState} : Cleared after → Effect config services action before after
  | requested {target middle after : SessionState} {rich : Bool} {leftContext : Option Text} :
      requestCandidatesWithContext config services.candidates target rich leftContext = .ok middle →
      Requested config action before target middle after →
      Effect config services action before after
  | revealed {after : SessionState} : before.inputMode = .selecting →
      SameLists (revealAdditionalCandidate config before) after → after.inputMode = .selecting →
      after.selectedCandidate = 0 → Effect config services action before after

/-- A correction that Tab accepts and that only deletes leaves a position. -/
def TabKeeps (config : EngineConfig) (key : Option KeyEvent) (session : SessionState) : Prop :=
  key.map KeyEvent.action = some .tab → session.inputMode = .composing →
    session.composing.isEmpty = false → ∀ prediction, session.prediction = some prediction →
      prediction.candidate = none →
      prediction.appendText = [] →
      (session.composing.deleteBackward config.tables prediction.deleteCount).isEmpty = false

/-- What a handler's result says: the state it leaves, and what became of the text. -/
def Outcome (config : EngineConfig) (services : Services) (key : Option KeyEvent)
    (before : SessionState) (result : StateResponse × SessionState) : Prop :=
  Effect config services (key.map KeyEvent.action) before result.2 ∧
    (before.composing.isEmpty = false → before.TabKeeps config key →
      Fate config key before result.1.commit result.2.composing)

section Frame
variable {action : Option UserAction} {key : Option KeyEvent} {before : SessionState}
  (requestId : Nat)
  (surrounding : SurroundingContext) (typoCorrections : List TypoCorrectionCandidate)

theorem acceptPrediction_frame (prediction : InputPrediction) :
    acceptPrediction config
        { before with lastRequestId := requestId, surrounding, typoCorrections } prediction =
      (acceptPrediction config before prediction).map fun accepted =>
        { accepted with lastRequestId := requestId, surrounding, typoCorrections } := by
  unfold acceptPrediction
  dsimp only
  split
  · rw [Option.map_map]
    rfl
  · split <;> rfl

/-- A handler does not see the request's number, the text around or the corrections. -/
theorem Effect.frame {after : SessionState}
    (h : Effect config services action
      { before with lastRequestId := requestId, surrounding, typoCorrections } after) :
    Effect config services action before after := by
  cases h with
  | kept hsame hmode hselects =>
    exact .kept ⟨hsame.1, hsame.2, hsame.3, hsame.4, hsame.5, hsame.6, hsame.7, hsame.8⟩
      hmode hselects
  | cleared hcleared => exact .cleared hcleared
  | requested hrequest hrequested =>
    exact .requested hrequest ⟨hrequested.1, hrequested.2, hrequested.3, hrequested.4, hrequested.5⟩
  | revealed hmode hsame hafter hzero =>
    exact .revealed hmode
      ⟨hsame.1, hsame.2, hsame.3, hsame.4, hsame.5, hsame.6, hsame.7, hsame.8⟩ hafter hzero

theorem GoesOn.frame {after : ComposingText}
    (h : GoesOn config key
      { before with lastRequestId := requestId, surrounding, typoCorrections } after) :
    GoesOn config key before after := by
  cases h with
  | kept => exact .kept
  | moved event cursor hkey haction hshift => exact .moved event cursor hkey haction hshift
  | typed event hkey haction => exact .typed event hkey haction
  | spaced hkey hlanguage => exact .spaced hkey hlanguage
  | separated hkey => exact .separated hkey
  | shortened hkey hleft => exact .shortened hkey hleft
  | completed prediction accepted hkey hmode hprediction haccept hleft =>
    rw [acceptPrediction_frame] at haccept
    obtain ⟨chosen, hchosen, rfl⟩ := Option.map_eq_some_iff.mp haccept
    exact .completed prediction chosen hkey hmode hprediction hchosen hleft

theorem Fate.frame {commit : Text} {after : ComposingText}
    (h : Fate config key
      { before with lastRequestId := requestId, surrounding, typoCorrections } commit after) :
    Fate config key before commit after := by
  cases h with
  | goesOn hcommit hgoes hleft => exact .goesOn hcommit hgoes.frame hleft
  | committed event hkey haction hcommit => exact .committed event hkey haction hcommit
  | typedOver event hkey haction hcommit => exact .typedOver event hkey haction hcommit
  | selected candidate hkeys hoffers hcommit => exact .selected candidate hkeys hoffers hcommit
  | cancelled hkey hmode hcommit => exact .cancelled hkey hmode hcommit
  | deleted hkey hempty hcommit => exact .deleted hkey hempty hcommit

theorem Outcome.frame {result : StateResponse × SessionState}
    (h : Outcome config services key
      { before with lastRequestId := requestId, surrounding, typoCorrections } result) :
    Outcome config services key before result :=
  ⟨h.1.frame, fun hne hkeeps => (h.2 hne hkeeps).frame⟩

end Frame

theorem SameLists.refl (session : SessionState) : SameLists session session :=
  ⟨rfl, rfl, rfl, rfl, rfl, rfl, rfl, .inl rfl⟩

theorem SameLists.trans {first second third : SessionState} (h : SameLists first second)
    (h' : SameLists second third) : SameLists first third where
  conversion := h'.conversion.trans h.conversion
  displayCandidates := h'.displayCandidates.trans h.displayCandidates
  candidateRemainders := h'.candidateRemainders.trans h.candidateRemainders
  candidateAnnotations := h'.candidateAnnotations.trans h.candidateAnnotations
  previewCandidateIndex := h'.previewCandidateIndex.trans h.previewCandidateIndex
  additionalCandidateCount := h'.additionalCandidateCount.trans h.additionalCandidateCount
  segmentSurfaceCount := h'.segmentSurfaceCount.trans h.segmentSurfaceCount
  liveCandidate := by
    cases h'.liveCandidate with
    | inl hsame => rw [hsame]; exact h.liveCandidate
    | inr hnone => exact .inr hnone

theorem reset_cleared {session : SessionState} (h : session.conversion.fullComposing = none) :
    session.reset.Cleared :=
  ⟨rfl, rfl, rfl, rfl, rfl, rfl, h, InputMode.noConfusion, fun _ => rfl⟩

/-- The session is reset after its marked text is committed. -/
theorem outcome_reset_committed {event : KeyEvent} {before session : SessionState}
    {consumed reset : Bool} {result : StateResponse × SessionState}
    (haction : event.action ∈ committingKeys)
    (hfull : session.conversion.fullComposing = none)
    (h : respond session.reset consumed before.currentMarkedText reset = .ok result) :
    Outcome config services (some event) before result := by
  cases h
  exact ⟨.cleared (reset_cleared hfull), fun _ _ => .committed event rfl haction rfl⟩

/-! ### Edits and the segment -/

section
variable (conversion : ConversionSession) (unicode : UnicodeTable) (tables : InputTableRegistry)

@[simp] theorem edited_composing (text : ComposingText) :
    (conversion.edited text).composing = text := rfl

@[simp] theorem insertStr_composing (value : Text) (style : Input.InputStyle) :
    (conversion.insertStr unicode tables value style).composing =
      conversion.composing.insert tables
        ((graphemes unicode value).map fun value => .character value style) := rfl

@[simp] theorem insertKey_composing (intention : Option Text) (input : Text)
    (modifiers : Finset InputModifier) (style : Input.InputStyle) :
    (conversion.insertKey tables intention input modifiers style).composing =
      conversion.composing.insert tables [⟨.key intention input modifiers, style⟩] := rfl

@[simp] theorem insertStr_fullComposing (value : Text) (style : Input.InputStyle) :
    (conversion.insertStr unicode tables value style).fullComposing =
    conversion.fullComposing := rfl

@[simp] theorem insertKey_fullComposing (intention : Option Text) (input : Text)
    (modifiers : Finset InputModifier) (style : Input.InputStyle) :
    (conversion.insertKey tables intention input modifiers style).fullComposing =
      conversion.fullComposing := rfl

@[simp] theorem insertCompositionSeparator_fullComposing (style : Input.InputStyle) :
    (conversion.insertCompositionSeparator tables style).fullComposing =
      conversion.fullComposing := by
  unfold ConversionSession.insertCompositionSeparator
  split <;> rfl

@[simp] theorem deleteBackward_fullComposing (count : Nat) :
    (conversion.deleteBackward tables count).fullComposing = conversion.fullComposing := by
  unfold ConversionSession.deleteBackward
  dsimp only
  split <;> rfl

@[simp] theorem deleteBackward_composing (count : Nat) :
    (conversion.deleteBackward tables count).composing =
      conversion.composing.deleteBackward tables count := by
  unfold ConversionSession.deleteBackward
  dsimp only
  split <;> rfl

@[simp] theorem selectCandidateValue_fullComposing (candidate : Session.Candidate) :
    (conversion.selectCandidateValue tables candidate).fullComposing =
    conversion.fullComposing := by
  unfold ConversionSession.selectCandidateValue
  dsimp only
  split <;> rfl

theorem insert_input_ne_nil (text : ComposingText) {elements : List InputElement}
    (h : elements ≠ []) : (text.insert tables elements).input ≠ [] := by
  have hlen := List.length_pos_of_ne_nil h
  refine List.ne_nil_of_length_pos ?_
  simp only [ComposingText.insert, if_neg h]
  split
  · simp only [List.length_append]
    omega
  · simp only [List.length_append]
    omega

theorem insert_direct_isEmpty (text : ComposingText) {surface : List Grapheme}
    (h : surface ≠ []) :
    (text.insert tables (surface.map fun value => .character value .direct)).isEmpty = false := by
  have hne : surface.map (fun value => InputElement.character value .direct) ≠ [] := by
    rwa [ne_eq, List.map_eq_nil_iff]
  have htake (input added : List InputElement) (position : Nat) :
      (input.take position ++ added ++ input.drop position).take (position + added.length) =
        input.take position ++ added := by
    obtain hlt | hle := Nat.lt_or_ge input.length position
    · rw [List.take_of_length_le hlt.le, List.drop_of_length_le hlt.le, List.append_nil,
        List.take_of_length_le (by simp [hlt.le])]
    · exact List.take_left' (by simp [Nat.min_eq_left hle])
  have hshown (input : List InputElement) :
      convertElements tables
        (input ++ surface.map fun value => .character value .direct) ≠ [] := by
    rw [convert_directCharacters]
    exact List.append_ne_nil_of_right_ne_nil _ h
  simp only [ComposingText.insert, if_neg hne, ComposingText.isEmpty, htake,
    List.isEmpty_eq_false_iff]
  refine List.append_ne_nil_of_left_ne_nil ?_ _
  split
  · exact hshown _
  · rw [← List.append_assoc, convert_frozenSeparator]
    exact hshown _

theorem insert_isAtEnd {text : ComposingText} (elements : List InputElement)
    (h : text.isAtEnd = true) : (text.insert tables elements).isAtEnd = true := by
  have hend : text.cursor = text.surface.length := of_decide_eq_true h
  have hforced : (text.forceInputCursor tables text.cursor).1 = text := by
    unfold ComposingText.forceInputCursor
    split
    · rfl
    · rw [if_pos hend.ge]
  unfold ComposingText.insert
  split
  · exact h
  · simp only [hforced]
    refine decide_eq_true ?_
    have hdrop : text.surface.drop text.cursor = [] := List.drop_of_length_le hend.ge
    simp only [hdrop, List.append_nil]
    generalize convertElements tables _ = newPrefix
    have hcommon := ComposingText.commonPrefixLen_le (text.surface.take text.cursor) newPrefix
    rw [List.length_take, hend, Nat.min_self] at hcommon ⊢
    omega

end

theorem insert_holds (tables : InputTableRegistry) {text : ComposingText}
    (h : text.isEmpty = false) (elements : List InputElement) :
    (text.insert tables elements).surface ≠ [] ∨ (text.insert tables elements).input ≠ [] := by
  by_cases helements : elements = []
  · subst helements
    exact .inl (List.isEmpty_eq_false_iff.mp h)
  · exact .inr (insert_input_ne_nil tables text helements)

theorem insertEvent_composing (session : SessionState) (event : KeyEvent) :
    ∃ elements, (insertEvent config session event).composing =
      session.composing.insert config.tables elements := by
  unfold insertEvent
  dsimp only [composing]
  split
  · exact ⟨_, insertStr_composing _ _ _ _ _⟩
  · split
    · split
      · exact ⟨_, insertKey_composing _ _ _ _ _ _⟩
      · exact ⟨_, insertStr_composing _ _ _ _ _⟩
    · exact ⟨_, insertStr_composing _ _ _ _ _⟩

/-- A text that goes on has something left to show or to convert. -/
theorem GoesOn.fate {key : Option KeyEvent} {before : SessionState} {after : ComposingText}
    (h : GoesOn config key before after) (hne : before.composing.isEmpty = false) :
    Fate config key before [] after := by
  refine .goesOn rfl h ?_
  cases h with
  | kept | moved => exact .inl (List.isEmpty_eq_false_iff.mp hne)
  | typed event =>
    obtain ⟨elements, helements⟩ := @insertEvent_composing config before event
    rw [helements]
    exact insert_holds config.tables hne elements
  | spaced => exact insert_holds config.tables hne _
  | separated =>
    show (before.conversion.insertCompositionSeparator config.tables
      before.inputStyle).composing.surface ≠
      [] ∨ (before.conversion.insertCompositionSeparator config.tables
        before.inputStyle).composing.input ≠ []
    unfold ConversionSession.insertCompositionSeparator
    split
    · exact .inl (List.isEmpty_eq_false_iff.mp hne)
    · exact insert_holds config.tables hne _
  | shortened _ hleft => exact .inl (List.isEmpty_eq_false_iff.mp hleft)
  | completed _ _ _ _ _ _ hleft => exact .inl (List.isEmpty_eq_false_iff.mp hleft)

theorem outcome_respond_self {key : Option KeyEvent} {session : SessionState} {consumed : Bool}
    {commit : Text} {reset : Bool} {result : StateResponse × SessionState}
    (hcommit : session.composing.isEmpty = false → commit = [])
    (h : respond session consumed commit reset = .ok result) :
    Outcome config services key session result := by
  cases h
  refine ⟨.kept (.refl session) (.same _) (fun _ => .inl rfl), fun hne _ => ?_⟩
  rw [show (makeState session consumed commit reset, session).1.commit = [] from hcommit hne]
  exact GoesOn.fate .kept hne

variable (config) in
@[simp] theorem insertEvent_fullComposing (session : SessionState) (event : KeyEvent) :
    (insertEvent config session event).conversion.fullComposing =
      session.conversion.fullComposing := by
  unfold insertEvent
  dsimp only
  split
  · rfl
  · split
    · split <;> rfl
    · rfl

theorem separated_convertsWhole {session : SessionState} (h : session.ConvertsWhole) :
    (session.separated config).ConvertsWhole := by
  cases h with
  | inl hnone => exact .inl hnone
  | inr hend =>
    refine .inr ?_
    show (session.conversion.insertCompositionSeparator config.tables
      session.inputStyle).composing.isAtEnd = true
    unfold ConversionSession.insertCompositionSeparator
    split
    · exact hend
    · exact insert_isAtEnd config.tables _ hend

/-! ### Committing a candidate -/

theorem surfaceText_of_isEmpty {text : ComposingText} (h : text.isEmpty = true) :
    text.surfaceText = [] := by
  rw [ComposingText.surfaceText, List.isEmpty_iff.mp h, List.flatten_nil]

theorem selectCandidateValue_surfaceText (conversion : ConversionSession)
    (tables : InputTableRegistry) (candidate : Session.Candidate) :
    (conversion.selectCandidateValue tables candidate).composing.surfaceText =
      conversion.remainingAfterCandidate tables candidate := by
  unfold ConversionSession.selectCandidateValue
  dsimp only
  split
  · rename_i hempty
    exact (surfaceText_of_isEmpty hempty).symm
  · rfl

theorem remainders_getElem? {session : SessionState}
    (h : session.candidateRemainders = remaindersOf config session session.displayCandidates)
    {index : Nat} {candidate : Session.Candidate}
    (hcandidate : session.displayCandidates[index]? = some candidate) :
    session.candidateRemainders[index]? = some (session.remaining config candidate) := by
  rw [h, remaindersOf, List.getElem?_map, hcandidate]
  rfl

theorem currentMarkedText_selecting {session : SessionState}
    (hmode : session.inputMode = .selecting)
    (h : session.candidateRemainders = remaindersOf config session session.displayCandidates)
    {candidate : Session.Candidate}
    (hcandidate : session.displayCandidates[session.selectedCandidate]? = some candidate) :
    session.currentMarkedText = candidate.text ++ session.remaining config candidate := by
  simp [currentMarkedText, hmode, hcandidate, remainders_getElem? h hcandidate]

theorem selectAndStageLearning_eq_ok {session : SessionState} {candidate : Session.Candidate}
    {selected : Text × SessionState}
    (h : selectAndStageLearning config services session candidate = .ok selected) :
    selected = (candidate.text,
      { session with
        conversion := session.conversion.selectCandidateValue config.tables candidate }) := by
  unfold selectAndStageLearning at h
  dsimp only at h
  split at h
  · split at h
    · exact (Except.ok.inj h).symm
    · cases h
  · exact (Except.ok.inj h).symm

theorem learnCurrentMarkedCandidate_fullComposing {session learned : SessionState} {text : Text}
    (hfull : session.conversion.fullComposing = none)
    (h : learnCurrentMarkedCandidate config services session text = .ok learned) :
    learned.conversion.fullComposing = none := by
  unfold learnCurrentMarkedCandidate at h
  split at h
  · cases h
    exact hfull
  · rename_i candidate _
    cases hselect : selectAndStageLearning config services session candidate with
    | error failure => rw [hselect] at h; cases h
    | ok selected =>
      rw [hselect] at h
      obtain rfl := Except.ok.inj h
      rw [selectAndStageLearning_eq_ok hselect]
      simpa using hfull

theorem afterSelection_of_isEmpty {session : SessionState} {mode : InputMode}
    (hfull : session.conversion.fullComposing = none) (h : session.composing.isEmpty = true) :
    (session.afterSelection mode).Cleared := by
  have hafter : session.afterSelection mode =
      { session.clearPresentation with
        lastWasBackspace := false, backspaceCorrection := none, inputMode := .none } := if_pos h
  rw [hafter]
  exact ⟨rfl, rfl, rfl, rfl, rfl, rfl, hfull, InputMode.noConfusion, fun _ => h⟩

theorem afterSelection_of_not_isEmpty {session : SessionState} {mode : InputMode}
    (h : session.composing.isEmpty = false) :
    session.afterSelection mode =
      { session.clearPresentation with
        lastWasBackspace := false
        backspaceCorrection := none
        segmentSurfaceCount := none
        inputMode := mode } :=
  if_neg (show ¬session.composing.isEmpty = true by rw [h]; exact Bool.false_ne_true)

theorem commitCandidate_outcome {key : Option KeyEvent} {session : SessionState}
    {candidate : Session.Candidate} {mode : InputMode} {result : StateResponse × SessionState}
    (hkeys : ∀ event, key = some event → event.action ∈ selectingKeys)
    (hfull : session.conversion.fullComposing = none) (hoffered : session.Offers config candidate)
    (hmode : mode = .previewing ∨ mode = .selecting)
    (h : commitCandidate config services session candidate mode = .ok result) :
    Outcome config services key session result := by
  unfold commitCandidate at h
  cases hselect : selectAndStageLearning config services session candidate with
  | error failure => rw [hselect] at h; cases h
  | ok selected =>
    have hselected := selectAndStageLearning_eq_ok hselect
    rw [hselect, hselected] at h
    dsimp only at h
    generalize hafter : ({ session with
      conversion := session.conversion.selectCandidateValue config.tables candidate } :
        SessionState) = chosen at h
    have hchosen : chosen.composing =
        (session.conversion.selectCandidateValue config.tables candidate).composing := by
      rw [← hafter]
    have hnone : chosen.conversion.fullComposing = none := by
      rw [← hafter]
      simpa using hfull
    have hcomposing : (chosen.afterSelection mode).composing = chosen.composing := by
      unfold afterSelection
      dsimp only
      split <;> rfl
    rw [hcomposing] at h
    cases hempty : chosen.composing.isEmpty with
    | true =>
      rw [if_pos hempty] at h
      cases h
      exact ⟨.cleared (afterSelection_of_isEmpty hnone hempty), fun _ _ =>
        (hcomposing.trans hchosen) ▸ .selected candidate hkeys hoffered rfl⟩
    | false =>
      rw [if_neg (by simp [hempty])] at h
      split at h
      · cases h
      · rename_i after hrequest
        cases h
        rw [afterSelection_of_not_isEmpty hempty] at hrequest
        have hanswered := requestCandidates_answered hrequest hnone
        have hkept : after.composing = chosen.composing := hanswered.composing
        refine ⟨.requested hrequest ⟨hanswered, .refl after, ?_, ?_, ?_⟩, fun _ _ =>
          (hkept.trans hchosen) ▸ .selected candidate hkeys hoffered rfl⟩
        · exact fun _ => .inr ⟨rfl, rfl⟩
        · intro hidle
          rw [hanswered.inputMode] at hidle
          rcases hmode with rfl | rfl <;> simp at hidle
        · exact fun _ => .inl (.inl rfl)

end SessionState

end BeanKey.Engine
