import BeanKey.Engine.Request

/-! The key handlers of a session, mode by mode. An error carries no session: whatever a
handler has changed by then, the reset that follows overwrites. -/
namespace BeanKey.Engine
open Session Input Protocol

/-- The response to a key and the session after it, or why the key fails. -/
abbrev KeyResult := Except Failure (StateResponse × SessionState)

def respond (session : SessionState) (consumed : Bool) (commit : Text) (reset : Bool) : KeyResult :=
  .ok (makeState session consumed commit reset, session)

def outsideCandidates (index : Nat) : Failure :=
  ⟨.invalidPayload, "candidate index " ++ toString index ++ " is outside the current candidates"⟩

section
variable (config : EngineConfig) (services : Services)

/-! ### Selecting -/

def selectAndStageLearning (session : SessionState) (candidate : Session.Candidate) :
    Except Failure (Text × SessionState) :=
  let selected :=
    { session with conversion := session.conversion.selectCandidateValue config.tables candidate }
  if candidate.isLearningTarget then
    match services.learn candidate with
    | .ok () => .ok (candidate.text, selected)
    | .error error => .error (internal "candidate selection" error)
  else .ok (candidate.text, selected)

/-- The candidate the marked text stands for, where there is one to learn. -/
def currentMarkedCandidate (session : SessionState) (markedText : Text) :
    Option Session.Candidate :=
  (session.liveCandidate.filter fun candidate => candidate.text = markedText).or <|
    (session.displayCandidates.zip session.candidateRemainders).findSome?
      fun (candidate, remaining) =>
      if remaining = [] ∧ candidate.text = markedText then some candidate else none

def learnCurrentMarkedCandidate (session : SessionState) (markedText : Text) :
    Except Failure SessionState :=
  match currentMarkedCandidate session markedText with
  | none => .ok session
  | some candidate => (selectAndStageLearning config services session candidate).map Prod.snd

/-- The session once a candidate is committed, before the rest is converted. -/
def SessionState.afterSelection (session : SessionState) (remainderMode : InputMode) :
    SessionState :=
  let session :=
    { session.clearPresentation with lastWasBackspace := false, backspaceCorrection := none }
  if session.composing.isEmpty then { session with inputMode := .none }
  else { session with segmentSurfaceCount := none, inputMode := remainderMode }

def commitCandidate (session : SessionState) (selected : Session.Candidate)
    (remainderMode : InputMode) : KeyResult :=
  match selectAndStageLearning config services session selected with
  | .error failure => .error failure
  | .ok (commit, session) =>
    let leftContext := session.surrounding.left.getD [] ++ commit
    let session := session.afterSelection remainderMode
    if session.composing.isEmpty then respond session true commit true
    else
      match requestCandidatesWithContext config services.candidates session true
        (some leftContext) with
      | .error failure => .error failure
      | .ok session => respond session true commit session.composing.isEmpty

def selectCandidateWithRemainderMode (session : SessionState) (index : Nat)
    (remainderMode : InputMode) : KeyResult :=
  match session.displayCandidates[index]? with
  | none => .error (outsideCandidates index)
  | some selected =>
    commitCandidate config services { session with typoCorrections := [] } selected remainderMode

def selectCandidate (session : SessionState) (index : Nat) : KeyResult :=
  selectCandidateWithRemainderMode config services session index .previewing

def revealAdditionalCandidate (session : SessionState) : SessionState :=
  let baseStart := session.additionalCandidateCount
  let additional := session.conversion.desktopAdditionalCandidates config.tables
    (session.displayCandidates[baseStart]?)
  let shown := min (baseStart + 1) additional.length
  let revealed := additional.drop (additional.length - shown)
  { session with
    displayCandidates := revealed.map Prod.fst ++ session.displayCandidates.drop baseStart
    candidateAnnotations := revealed.map Prod.snd ++ session.candidateAnnotations.drop baseStart
    additionalCandidateCount := shown
    selectedCandidate := 0 }.withRemainders config

def selectTypoCorrection (session : SessionState) (index : Nat) : KeyResult :=
  match session.typoCorrections[index]? with
  | none =>
    .error ⟨.invalidPayload,
      "typo correction index " ++ toString index ++ " is outside the current candidates"⟩
  | some correction =>
    let session := session.reset
    .ok (emptyState session true correction.convertedText true, session)

def forgetCandidate (session : SessionState) (index : Nat) : KeyResult :=
  match session.displayCandidates[index]? with
  | none => .error (outsideCandidates index)
  | some candidate =>
    match services.forgetLearning candidate with
    | .error error => .error (internal "learning memory forget" error)
    | .ok () =>
      let session :=
        { session with typoCorrections := [], selectedCandidate := 0, liveCandidate := none }
      match requestCandidates config services.candidates session with
      | .error failure => .error failure
      | .ok session => respond session true [] false

def resetLearning (session : SessionState) : KeyResult :=
  match services.resetLearning with
  | .error error => .error (internal "learning memory reset" error)
  | .ok () =>
    let session :=
      { session with typoCorrections := [], selectedCandidate := 0, liveCandidate := none }
    if session.composing.isEmpty then respond session true [] false
    else
      match requestCandidates config services.candidates session with
      | .error failure => .error failure
      | .ok session => respond session true [] false

/-! ### Unicode input -/

def enterUnicodeInput (session : SessionState) : KeyResult :=
  let enter (session : SessionState) (commit : Text) : KeyResult :=
    respond { session with inputMode := .unicode, unicodeInput := [] } true commit false
  match session.inputMode with
  | .none | .unicode => enter session []
  | .composing | .previewing =>
    let commit := session.currentMarkedText
    match learnCurrentMarkedCandidate config services session commit with
    | .error failure => .error failure
    | .ok session => enter session.reset commit
  | .selecting =>
    match session.displayCandidates[session.selectedCandidate]? with
    | none => .error ⟨.invalidPayload, "selected candidate is outside the current candidates"⟩
    | some candidate =>
      match selectAndStageLearning config services session candidate with
      | .error failure => .error failure
      | .ok (commit, session) =>
        enter session.reset
          (if session.composing.isEmpty then commit else commit ++ session.composing.surfaceText)

def handleUnicodeInput (session : SessionState) (event : KeyEvent) : KeyResult :=
  match event.action with
  | .input =>
    respond
      { session with
        unicodeInput :=
          session.unicodeInput ++ (event.input.map toAsciiLowercase).filter isAsciiHexdigit }
      true [] false
  | .backspace =>
    if session.unicodeInput = [] then respond session.reset true [] true
    else respond { session with unicodeInput := session.unicodeInput.dropLast } true [] false
  | .enter | .space =>
    respond session.reset true (unicodeCharacter session.unicodeInput).toList true
  | .escape => respond session.reset true [] true
  | _ => respond session true [] false

/-! ### Typing -/

def insertEvent (session : SessionState) (event : KeyEvent) : SessionState :=
  let inserted :=
    if session.inputLanguage = .english then
      session.conversion.insertStr config.unicode config.tables (KeyEvent.typed event) .direct
    else
      match session.inputStyle with
      | .mapped table =>
        if event.input ≠ [] ∨ event.intention ≠ [] then
          session.conversion.insertKey config.tables
            (if event.intention = [] then none else some event.intention) (KeyEvent.typed event)
            (if event.shift then {.shift} else ∅) (.mapped table)
        else session.conversion.insertStr config.unicode config.tables event.text (.mapped table)
      | style => session.conversion.insertStr config.unicode config.tables event.text style
  { session with conversion := inserted }

def composeEvent (session : SessionState) (event : KeyEvent) (commit : Text) : KeyResult :=
  let session := { insertEvent config session event with inputMode := .composing }
  match requestCandidates config services.candidates session with
  | .error failure => .error failure
  | .ok session => respond session true commit false

def committedByTyping (session : SessionState) : Text :=
  if session.inputMode = .previewing ∨ session.inputMode = .selecting then session.currentMarkedText
  else []

def handleText (session : SessionState) (event : KeyEvent) : KeyResult :=
  if validEventText event then
    let commit := committedByTyping session
    let session := if commit = [] then session.clearPresentation else session.reset
    composeEvent config services
      { session with segmentSurfaceCount := none, lastWasBackspace := false } event commit
  else respond session false [] false

/-- The candidate a digit selects on the page of the selected one. -/
def pageIndex (session : SessionState) (number : Nat) : Nat :=
  session.selectedCandidate / 9 * 9 + number - 1

def handleInput (session : SessionState) (event : KeyEvent) : KeyResult :=
  if session.inputMode = .none ∧ session.inputLanguage = .english ∧ KeyEvent.typed event ≠ [] ∧
      !(KeyEvent.typed event).any isControl then
    respond session true (KeyEvent.typed event) false
  else if session.inputMode = .selecting then
    match selectionNumber event.text with
    | some 0 => composeEvent config services session.reset event session.currentMarkedText
    | some number => selectCandidate config services session (pageIndex session number)
    | none => handleText config services session event
  else handleText config services session event

/-! ### The other keys -/

/-- The correction a deletion suggests, once the shorter text is converted. -/
def suggestCorrection (session : SessionState) : SessionState :=
  match session.backspaceCorrection with
  | none => session
  | some (display, target) =>
    match suffixEditPrediction config.unicode session.composing.surfaceText target display with
    | some correction => { session with prediction := some correction }
    | none => { session with backspaceCorrection := none }

def deleteLast (session : SessionState) : SessionState × ComposingText :=
  let toEnd : Int := (session.composing.surface.length : Int) - session.composing.cursor
  let moved := session.conversion.moveCursor toEnd
  ({ session with
      conversion := moved.deleteBackward config.tables 1
      segmentSurfaceCount := none
      lastWasBackspace := true }, moved.composing)

def handleBackspace (session : SessionState) : KeyResult :=
  if session.composing.isEmpty then respond session false [] false
  else
    let corrects := config.lmTypoEnabled && session.backspaceCorrection.isNone
    let (deleted, previous) := deleteLast config session
    if deleted.composing.isEmpty then respond deleted.reset true [] true
    else
      match requestCandidates config services.candidates
          { deleted with inputMode := .composing }.clearPresentation with
      | .error failure => .error failure
      | .ok session =>
        let session := { session with liveCandidate := none }
        let corrected :=
          if corrects then updateBackspaceCorrection config services session previous
            else .ok session
        match corrected with
        | .error failure => .error failure
        | .ok session => respond (suggestCorrection config session) true [] false

def handleEscape (session : SessionState) : KeyResult :=
  match session.inputMode with
  | .none | .unicode => respond session false [] false
  | .composing => respond session.reset true [] true
  | .previewing => respond { session with inputMode := .composing } true [] false
  | .selecting =>
    respond { session with inputMode := if config.liveConversion then .composing else .previewing }
      true [] false

def handleEnter (session : SessionState) : KeyResult :=
  match session.inputMode with
  | .none => respond session false [] false
  | .selecting => selectCandidate config services session session.selectedCandidate
  | _ =>
    let commit := session.currentMarkedText
    match learnCurrentMarkedCandidate config services session commit with
    | .error failure => .error failure
    | .ok session => respond session.reset true commit true

def SessionState.separated (session : SessionState) : SessionState :=
  { session with
    conversion := session.conversion.insertCompositionSeparator config.tables session.inputStyle
    lastWasBackspace := false }

def openSelection (session : SessionState) : KeyResult :=
  match requestRichCandidates config services.candidates session with
  | .error failure => .error failure
  | .ok session => respond { session with inputMode := .selecting, selectedCandidate := 0 } true
      [] false

def SessionState.selectNext (session : SessionState) : SessionState :=
  let count := session.displayCandidates.length
  if 0 < count then
    { session with selectedCandidate := min (session.selectedCandidate + 1) (count - 1) }
  else session

def SessionState.selectPrevious (session : SessionState) : SessionState :=
  { session with selectedCandidate := session.selectedCandidate - 1 }

def insertEnglishSpace (session : SessionState) : SessionState :=
  { session with
    conversion := session.conversion.insertStr config.unicode config.tables [' '] .direct
    segmentSurfaceCount := none
    lastWasBackspace := false
    backspaceCorrection := none }.clearPresentation

def handleSpace (session : SessionState) (event : KeyEvent) : KeyResult :=
  match session.inputMode with
  | .none =>
    let fullWidth := session.inputLanguage = .japanese ∧
      event.shift = config.inputBehavior.typeHalfSpace
    respond session true (if fullWidth then ['\u3000'] else [' ']) false
  | .composing =>
    if session.inputLanguage = .english then
      respond (insertEnglishSpace config session) true [] false
    else if config.liveConversion then
      openSelection config services { session.separated config with inputMode := .selecting }
    else
      match requestCandidates config services.candidates
          { session.separated config with inputMode := .previewing } with
      | .error failure => .error failure
      | .ok session =>
        respond { session with selectedCandidate := session.previewCandidateIndex.getD 0 } true
          [] false
  | .previewing => openSelection config services session
  | .selecting =>
    -- An empty list has nothing to go back to either.
    if session.displayCandidates.length = 0 then respond session true [] false
    else if event.shift then respond session.selectPrevious true [] false
    else respond session.selectNext true [] false
  | .unicode => respond session false [] false

def handleDown (session : SessionState) : KeyResult :=
  match session.inputMode with
  | .composing | .previewing => openSelection config services (session.separated config)
  | .selecting => respond session.selectNext true [] false
  | .none | .unicode => respond session false [] false

def handleUp (session : SessionState) : KeyResult :=
  if session.inputMode = .selecting then
    if session.selectedCandidate = 0 ∧ session.additionalCandidateCount < 5 then
      respond (revealAdditionalCandidate config session) true [] false
    else respond session.selectPrevious true [] false
  else respond session (session.inputMode ≠ .none) [] false

/-- The text with the cursor after the selected candidate, while one is selected. -/
def cursorAfterSelection (session : SessionState) : ConversionSession :=
  match if session.inputMode = .selecting then
    session.candidateRemainders[session.selectedCandidate]?
    else none with
  | none => session.conversion
  | some remaining =>
    let consumed :=
      match session.displayCandidates[session.selectedCandidate]? with
      | some candidate => session.conversion.consumedSurfaceCount config.tables candidate
      | none => session.composing.surface.length - remaining.length
    session.conversion.moveCursor ((consumed : Int) - session.composing.cursor)

def segmentTarget (composing : ComposingText) (right : Bool) : Nat :=
  if right then if composing.surface.length ≤ composing.cursor then 1 else composing.cursor + 1
  else max (composing.cursor - 1) 1

def SessionState.segmented (session : SessionState) (right : Bool) : SessionState :=
  let conversion := cursorAfterSelection config session
  let target := segmentTarget conversion.composing right
  { session with
    conversion := conversion.moveCursor ((target : Int) - conversion.composing.cursor)
    segmentSurfaceCount := some target
    lastWasBackspace := false
    inputMode := .selecting }.clearPresentation

def moveSegment (session : SessionState) (right : Bool) : KeyResult :=
  match requestCandidates config services.candidates (session.segmented config right) with
  | .error failure => .error failure
  | .ok session => respond { session with liveCandidate := none } true [] false

def handleArrow (session : SessionState) (event : KeyEvent) (right : Bool) : KeyResult :=
  if session.inputMode = .none then respond session false [] false
  else if event.shift then moveSegment config services session right
  else if right ∧ session.inputMode = .selecting then
    selectCandidateWithRemainderMode config services session session.selectedCandidate .selecting
  else respond session true [] false

/-- The session with a prediction put in place of what it completes, `none` where it does
not apply. -/
def acceptPrediction (session : SessionState) (prediction : InputPrediction) :
    Option SessionState :=
  let session := { session with lastWasBackspace := false }
  match prediction.candidate with
  | some candidate =>
    (session.conversion.acceptPredictionCandidate config.unicode config.tables candidate).map
      fun conversion => { session with conversion }
  | none =>
    let conversion :=
      if 0 < prediction.deleteCount then
        session.conversion.deleteBackward config.tables prediction.deleteCount
      else session.conversion
    if prediction.appendText = [] then
      some { session with conversion, backspaceCorrection := none, lastWasBackspace := true }
    else
      some
        { session with
          conversion :=
            conversion.insertStr config.unicode config.tables prediction.appendText .direct
          backspaceCorrection := none }

def handleTab (session : SessionState) : KeyResult :=
  if session.inputMode = .none then respond session false [] false
  else
    match if session.inputMode = .composing then session.prediction else none with
    | none => respond session true [] false
    | some prediction =>
      match acceptPrediction config session prediction with
      | none => respond { session with lastWasBackspace := false } true [] false
      | some session =>
        match requestCandidates config services.candidates session with
        | .error failure => .error failure
        | .ok session => respond session true [] false

/-- The key for the `index`-th representation: of the selected candidate's reading, or of the
whole text. -/
def handleRepresentation (session : SessionState) (index : Fin 5) : KeyResult :=
  if session.inputMode = .none then respond session false [] false
  else
    let selected :=
      if session.inputMode = .selecting then session.displayCandidates[session.selectedCandidate]?
      else none
    match (session.conversion.desktopAdditionalCandidates config.tables selected)[index]? with
    | none => respond session false [] false
    | some transformed => commitCandidate config services session transformed.1 .selecting

def handleEisu (session : SessionState) : KeyResult :=
  if session.inputMode = .selecting then
    match selectCandidate config services session session.selectedCandidate with
    | .error failure => .error failure
    | .ok (response, session) =>
      .ok ({ response with inputLanguage := some .english },
        { session with inputLanguage := .english })
  else respond { session with inputLanguage := .english } true [] false

def handleForget (session : SessionState) : KeyResult :=
  if session.inputMode = .selecting then forgetCandidate config services session
    session.selectedCandidate
  else respond session false [] false

/-- The text an event types directly, with option, on an empty composition. -/
def directInput (session : SessionState) (event : KeyEvent) : Option Text :=
  if event.action = .input ∧ session.inputMode = .none ∧ session.inputLanguage = .japanese ∧
      config.inputBehavior.optionDirectFullWidthInput ∧ event.option then
    optionDirectInputText event config.inputBehavior.typeBackslash
  else none

/-- The main state machine, for a normalized event outside Unicode input. -/
def handleAction (session : SessionState) (event : KeyEvent) : KeyResult :=
  match event.action with
  | .startUnicodeInput => enterUnicodeInput config services session
  | .eisu => handleEisu config services session
  | .kana => respond { session with inputLanguage := .japanese } true [] false
  | .input => handleInput config services session event
  | .backspace => handleBackspace config services session
  | .escape => handleEscape config session
  | .enter => handleEnter config services session
  | .space => handleSpace config services session event
  | .down => handleDown config services session
  | .up => handleUp config session
  | .left => handleArrow config services session event false
  | .right => handleArrow config services session event true
  | .tab => handleTab config services session
  | .halfWidthRoman => handleRepresentation config services session 0
  | .fullWidthRoman => handleRepresentation config services session 1
  | .halfWidthKatakana => handleRepresentation config services session 2
  | .katakana => handleRepresentation config services session 3
  | .hiragana => handleRepresentation config services session 4
  | .forget => handleForget config services session
  | .consume => respond session (session.inputMode ≠ .none) [] false
  | .unspecified | .deleteForward | .pageUp | .pageDown => respond session false [] false

def handleKey (session : SessionState) (event : KeyEvent) : KeyResult :=
  let session := { session with typoCorrections := [] }
  match directInput config session event with
  | some text => respond session true text false
  | none =>
    let event := normalizeInputEvent event config.inputBehavior
    if session.inputMode = .unicode then handleUnicodeInput session event
    else handleAction config services session event

end

end BeanKey.Engine
