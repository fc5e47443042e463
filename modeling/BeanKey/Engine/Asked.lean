import BeanKey.Engine.Selection
import BeanKey.Input.Cursor
import BeanKey.Lattice.Mismatch

/-! The text a key asks to be converted. A conversion answers where the text has as many
positions as grapheme clusters; elsewhere it leaves the lattice or the reading. -/
namespace BeanKey.Engine
open Session Input Protocol SessionState

/-! ### Conversions that stay inside -/

/-- The text shows what its input converts to, in as many positions as it has clusters. -/
structure ConvertsInside (config : EngineConfig) (text : ComposingText) : Prop where
  surface : text.surface = convertElements config.tables text.input
  count : (graphemes config.unicode text.surfaceText).length = text.surface.length

instance (config : EngineConfig) (text : ComposingText) :
    Decidable (ConvertsInside config text) :=
  decidable_of_iff (text.surface = convertElements config.tables text.input ∧
      (graphemes config.unicode text.surfaceText).length = text.surface.length)
    ⟨fun h => ⟨h.1, h.2⟩, fun h => ⟨h.1, h.2⟩⟩

/-- A text typed directly, at once, has a position for every cluster. -/
theorem convertsInside_typed (config : EngineConfig) (value : Text) :
    ConvertsInside config
      (ComposingText.new.insertStr config.unicode config.tables value .direct) := by
  by_cases hvalue : value = []
  · subst hvalue
    exact ⟨rfl, rfl⟩
  · have hsurface :
        (ComposingText.new.insertStr config.unicode config.tables value .direct).surface =
        graphemes config.unicode value :=
      (ComposingText.insertStr_direct ComposingText.new_wellFormed rfl hvalue).1
    refine ⟨(ComposingText.insert_coherent ComposingText.new_wellFormed.coherent ?_ ?_).surface, ?_⟩
    · intro element helement
      obtain ⟨_, -, rfl⟩ := List.mem_map.mp helement
      exact quiet_of_piece_ne InputPiece.noConfusion
    · exact fun _ hhides => hhides.2 rfl
    · rw [ComposingText.surfaceText, hsurface, flatten_graphemes]

/-- No call fails, as long as the text it converts stays inside. -/
structure Answers.SucceedInside (config : EngineConfig) (answers : Answers) : Prop where
  validateLearning : answers.validateLearning = .ok ()
  request : ∀ request, ConvertsInside config request.session.composing →
    ∃ result, answers.request request = .ok result
  zenz : ∀ zenz, answers.zenz = some zenz → ∀ request,
    ConvertsInside config request.session.composing → ∀ message,
      zenz request ≠ .error (.other message)

structure Services.SucceedInside (config : EngineConfig) (services : Services) : Prop where
  candidates : services.candidates.SucceedInside config
  display : services.display.SucceedInside config
  previousDisplay : services.previousDisplay.SucceedInside config
  typoCorrections : ∀ session composing message,
    services.typoCorrections session composing ≠ .error (.other message)
  learn : ∀ candidate, services.learn candidate = .ok ()
  forgetLearning : ∀ candidate, services.forgetLearning candidate = .ok ()
  resetLearning : services.resetLearning = .ok ()

section
variable (config : EngineConfig)

/-- The text a request converts: the one before the cursor where a segment is asked for. -/
def requestedText (target : SessionState) : ComposingText :=
  if target.segmentSurfaceCount.isSome then
    (target.conversion.beginSegmentRequest config.tables).composing
  else target.composing

theorem prepared_composing (target : SessionState) :
    (target.prepared config).composing = requestedText config target := by
  unfold requestedText
  cases hback : target.lastWasBackspace with
  | true =>
    by_cases hsegment : target.segmentSurfaceCount.isSome = true
    · simp [SessionState.prepared, hback, hsegment, composing]
    · simp [SessionState.prepared, hback, hsegment, composing]
  | false =>
    by_cases hsegment : target.segmentSurfaceCount.isSome = true
    · simp [SessionState.prepared, hback, hsegment, composing]
    · simp [SessionState.prepared, hback, hsegment, composing]

theorem Answers.SucceedInside.requestCandidates {config : EngineConfig} {answers : Answers}
    (h : answers.SucceedInside config) {session : SessionState}
    (hinside : ConvertsInside config (requestedText config session)) (rich : Bool)
    (leftContext : Option Text) :
    ∃ after, requestCandidatesWithContext config answers session rich leftContext = .ok after := by
  rw [← prepared_composing] at hinside
  obtain ⟨result, hresult⟩ := h.request ⟨session.prepared config, rich, leftContext⟩ hinside
  have hanswer : ∃ answer, answers.convert ⟨session.prepared config, rich, leftContext⟩ =
      .ok answer := by
    unfold Answers.convert
    cases hzenz : answers.zenz with
    | none => exact ⟨(result, none), by simp [hresult]⟩
    | some zenz =>
      cases hanswer : zenz ⟨session.prepared config, rich, leftContext⟩ with
      | ok answer => exact ⟨answer, by simp [hanswer]⟩
      | error failure =>
        cases failure with
        | contextCapacityExceeded => exact ⟨(result, none), by simp [hanswer, hresult]⟩
        | other message => exact absurd hanswer (h.zenz zenz hzenz _ hinside message)
  obtain ⟨answer, hanswer⟩ := hanswer
  refine ⟨((session.prepared config).present config answer.1 answer.2).finished config, ?_⟩
  unfold requestCandidatesWithContext requestCandidatesForActiveTarget
  rw [h.validateLearning]
  simp only [hanswer]
  rfl

/-! ### What each key asks for -/

def remainderAsked (session : SessionState) (candidate : Session.Candidate) :
    Option ComposingText :=
  let left := (session.conversion.selectCandidateValue config.tables candidate).composing
  if left.isEmpty then none else some left

def selectionAsked (session : SessionState) (index : Nat) : Option ComposingText :=
  (session.displayCandidates[index]?).bind (remainderAsked config session)

def selectedAsked (session : SessionState) : Option ComposingText :=
  if session.inputMode = .selecting then selectionAsked config session session.selectedCandidate
  else none

def textAsked (session : SessionState) (event : KeyEvent) : Option ComposingText :=
  if validEventText event then
    if committedByTyping session = [] then some (insertEvent config session event).composing
    else some (insertEvent config session.reset event).composing
  else none

def inputAsked (session : SessionState) (event : KeyEvent) : Option ComposingText :=
  if session.inputMode = .none ∧ session.inputLanguage = .english ∧ KeyEvent.typed event ≠ [] ∧
      !(KeyEvent.typed event).any isControl then
    none
  else if session.inputMode = .selecting then
    match selectionNumber event.text with
    | some 0 => some (insertEvent config session.reset event).composing
    | some number => selectionAsked config session (pageIndex session number)
    | none => textAsked config session event
  else textAsked config session event

def backspaceAsked (session : SessionState) : Option ComposingText :=
  if session.composing.isEmpty then none
  else
    let left := (deleteLast config session).1.composing
    if left.isEmpty then none else some left

def spaceAsked (session : SessionState) : Option ComposingText :=
  match session.inputMode with
  | .composing =>
    if session.inputLanguage = .english then none
    else some (requestedText config (session.separated config))
  | .previewing => some (requestedText config session)
  | _ => none

def downAsked (session : SessionState) : Option ComposingText :=
  match session.inputMode with
  | .composing | .previewing => some (requestedText config (session.separated config))
  | _ => none

def arrowAsked (session : SessionState) (event : KeyEvent) (right : Bool) :
    Option ComposingText :=
  if session.inputMode = .none then none
  else if event.shift then some (requestedText config (session.segmented config right))
  else if right then selectedAsked config session
  else none

def tabAsked (session : SessionState) : Option ComposingText :=
  ((if session.inputMode = .composing then session.prediction else none).bind
    (acceptPrediction config session)).map (requestedText config)

def representationAsked (session : SessionState) (index : Nat) : Option ComposingText :=
  if session.inputMode = .none then none
  else
    let selected :=
      if session.inputMode = .selecting then session.displayCandidates[session.selectedCandidate]?
      else none
    ((session.conversion.desktopAdditionalCandidates config.tables selected)[index]?).bind
      fun transformed => remainderAsked config session transformed.1

def forgetAsked (session : SessionState) : Option ComposingText :=
  if session.inputMode = .selecting then some (requestedText config session) else none

/-- The text a key asks to be converted, outside Unicode input. -/
def actionAsked (session : SessionState) (event : KeyEvent) : Option ComposingText :=
  match event.action with
  | .eisu | .enter => selectedAsked config session
  | .input => inputAsked config session event
  | .backspace => backspaceAsked config session
  | .space => spaceAsked config session
  | .down => downAsked config session
  | .left => arrowAsked config session event false
  | .right => arrowAsked config session event true
  | .tab => tabAsked config session
  | .halfWidthRoman => representationAsked config session 0
  | .fullWidthRoman => representationAsked config session 1
  | .halfWidthKatakana => representationAsked config session 2
  | .katakana => representationAsked config session 3
  | .hiragana => representationAsked config session 4
  | .forget => forgetAsked config session
  | _ => none

def keyAsked (session : SessionState) (event : KeyEvent) : Option ComposingText :=
  match directInput config session event with
  | some _ => none
  | none =>
    if session.inputMode = .unicode then none
    else actionAsked config session (normalizeInputEvent event config.inputBehavior)

/-- What is asked for depends neither on the request's number nor on the text around. -/
theorem keyAsked_frame (session : SessionState) (event : KeyEvent) (requestId : Nat)
    (surrounding : SurroundingContext) (typoCorrections : List TypoCorrectionCandidate) :
    keyAsked config
      { session with lastRequestId := requestId, surrounding, typoCorrections } event =
      keyAsked config session event := by
  have htab : tabAsked config
      { session with lastRequestId := requestId, surrounding, typoCorrections } =
        tabAsked config session := by
    unfold tabAsked
    dsimp only
    cases (if session.inputMode = .composing then session.prediction else none) with
    | none => rfl
    | some prediction =>
      rw [Option.bind_some, Option.bind_some, acceptPrediction_frame, Option.map_map]
      rfl
  have haction (event : KeyEvent) : actionAsked config
      { session with lastRequestId := requestId, surrounding, typoCorrections } event =
        actionAsked config session event := by
    unfold actionAsked
    cases event.action
    case tab => exact htab
    all_goals rfl
  unfold keyAsked
  rw [haction]
  rfl

end

end BeanKey.Engine
