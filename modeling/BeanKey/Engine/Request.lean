import BeanKey.Engine.State

/-! Requests for candidates. What the dictionary, the learning memory and the models answer
is a parameter: any answer, another one for every call. -/
namespace BeanKey.Engine
open Session Input Protocol

inductive InferenceFailure where
  | contextCapacityExceeded
  | other (message : String)

/-- A request: the session it is made for, whether rich candidates are asked for, and the
left context where it replaces the surrounding one. -/
structure ConversionRequest where
  session : SessionState
  rich : Bool
  leftContext : Option Text

/-- What one call for candidates is answered. A conversion reviewed by the model also
names the candidate the review ended with. -/
structure Answers where
  validateLearning : Except String Unit
  zenz : Option (ConversionRequest →
    Except InferenceFailure (ConversionResult × Option Session.Candidate))
  request : ConversionRequest → Except String ConversionResult

/-- What the calls that one message makes are answered. -/
structure Services where
  candidates : Answers
  /-- The conversions of a backspace correction and of the reading it corrects. -/
  display : Answers
  previousDisplay : Answers
  typoCorrections : SessionState → ComposingText →
    Except InferenceFailure (List TypoCorrectionCandidate)
  learn : Session.Candidate → Except String Unit
  commitLearning : Except String Unit
  forgetLearning : Session.Candidate → Except String Unit
  resetLearning : Except String Unit
  openUserDictionary : Except String Unit
  openLearning : Except String Unit

def internal (operation : String) (error : String) : Failure :=
  ⟨.internal, operation ++ " failed: " ++ error⟩

/-- The conversion of the active target. Where the model has no room for the context, the
dictionary answers alone. -/
def Answers.convert (answers : Answers) (request : ConversionRequest) :
    Except Failure (ConversionResult × Option Session.Candidate) :=
  let plain :=
    match answers.request request with
    | .ok result => .ok (result, none)
    | .error error => .error (internal "candidate generation" error)
  match answers.zenz with
  | none => plain
  | some zenz =>
    match zenz request with
    | .ok answer => .ok answer
    | .error .contextCapacityExceeded => plain
    | .error (.other error) => .error (internal "Zenz candidate generation" error)

section
variable (config : EngineConfig)

/-- The remainders of the shown candidates, on the composing text there is now. -/
def remaindersOf (session : SessionState) (candidates : List Session.Candidate) : List Text :=
  candidates.map (session.conversion.remainingAfterCandidate config.tables)

def SessionState.withRemainders (session : SessionState) : SessionState :=
  { session with candidateRemainders := remaindersOf config session session.displayCandidates }

/-- The live preview is the first result, while a reading is typed at its end. -/
def liveCandidateOf (session : SessionState) (result : ConversionResult) :
    Option Session.Candidate :=
  if config.liveConversion ∧ session.inputMode = .composing ∧ session.inputLanguage = .japanese ∧
      session.segmentSurfaceCount = none ∧ session.composing.isAtEnd ∧ !session.lastWasBackspace ∧
      1 < session.composing.surface.length then
    result.mainResults.head?
  else none

def positionOf (candidates : List Session.Candidate) (candidate : Session.Candidate) :
    Option Nat :=
  candidates.findIdx? fun shown =>
    shown.text = candidate.text ∧ shown.composingCount = candidate.composingCount

def displayCandidatesOf (session : SessionState) (result : ConversionResult) :
    List Session.Candidate :=
  if session.segmentSurfaceCount.isSome then result.mainResults
  else session.conversion.desktopCandidates config.tables result

def annotationOf (evaluated : Option Session.Candidate) (candidate : Session.Candidate) : Text :=
  if evaluated.any fun evaluated =>
      candidate.composingCount = evaluated.composingCount ∧ candidate.entries = evaluated.entries
  then "Zenzai".toList
  else []

/-- Where the first result stands among the shown candidates, if nothing remains after it. -/
def previewIndexOf (session : SessionState) (result : ConversionResult)
    (shown : List Session.Candidate) : Option Nat :=
  (result.mainResults.head?.filter fun preview =>
    (session.conversion.remainingAfterCandidate config.tables preview).isEmpty).bind
      (positionOf shown)

/-- The presentation of an answer, as `request_candidates_for_active_target` builds it. -/
def SessionState.present (session : SessionState) (result : ConversionResult)
    (evaluated : Option Session.Candidate) : SessionState :=
  let live := liveCandidateOf config session result
  let shown := displayCandidatesOf config session result
  { session with
    conversion := { session.conversion with candidates := result.mainResults }
    displayCandidates := shown
    candidateRemainders := remaindersOf config session shown
    candidateAnnotations := shown.map (annotationOf evaluated)
    previewCandidateIndex := previewIndexOf config session result shown
    additionalCandidateCount := 0
    prediction := inputPrediction config.unicode session result
    selectedCandidate := (live.bind (positionOf shown)).getD session.selectedCandidate
    liveCandidate := live }

def requestCandidatesForActiveTarget (answers : Answers) (request : ConversionRequest) :
    Except Failure SessionState :=
  match answers.validateLearning with
  | .error error => .error (internal "learning memory refresh" error)
  | .ok () =>
    match answers.convert request with
    | .error failure => .error failure
    | .ok (result, evaluated) => .ok (request.session.present config result evaluated)

def SessionState.prepared (session : SessionState) : SessionState :=
  let session :=
    if session.lastWasBackspace then session else { session with backspaceCorrection := none }
  if session.segmentSurfaceCount.isSome then
    { session with conversion := session.conversion.beginSegmentRequest config.tables }
  else session

/-- What a request does once it is answered: the candidates of a segment are shown beside
what remains of the whole text. -/
def SessionState.finished (session : SessionState) : SessionState :=
  if session.segmentSurfaceCount.isSome then
    { session with conversion := session.conversion.endSegmentRequest }.withRemainders config
  else session

def requestCandidatesWithContext (answers : Answers) (session : SessionState) (rich : Bool)
    (leftContext : Option Text) : Except Failure SessionState :=
  (requestCandidatesForActiveTarget config answers
    ⟨session.prepared config, rich, leftContext⟩).map (SessionState.finished config)

def requestCandidates (answers : Answers) (session : SessionState) : Except Failure SessionState :=
  requestCandidatesWithContext config answers session false none

def requestRichCandidates (answers : Answers) (session : SessionState) :
    Except Failure SessionState :=
  requestCandidatesWithContext config answers session true none

/-! ### Typo corrections -/

def requestTypoCorrections (services : Services) (session : SessionState)
    (composing : ComposingText) : Except Failure (List TypoCorrectionCandidate) :=
  if !config.lmTypoEnabled then .error ⟨.invalidPayload, "LM typo correction is disabled"⟩
  else if !config.lmTypoNgram then
    .error ⟨.internal, "N-gram model is unavailable for LM typo correction"⟩
  else
    match services.typoCorrections session composing with
    | .ok candidates => .ok candidates
    | .error .contextCapacityExceeded => .ok []
    | .error (.other error) => .error (internal "LM typo correction" error)

def convertedReading (answers : Answers) (session : SessionState) (reading : Text) :
    Except Failure Text :=
  let preview := session.reset
  let preview :=
    { preview with
      surrounding := { preview.surrounding with right := none }
      requestOptions :=
        { preview.requestOptions with
          japanesePrediction := .disabled
          foreignPrediction := .disabled }
      conversion := preview.conversion.insertStr config.unicode config.tables reading .direct }
  (requestCandidates config answers preview).map fun preview =>
    preview.conversion.candidates.head?.elim reading Session.Candidate.text

/-- Keeps the best correction of the text before the deletion, where it would show
something else. -/
def updateBackspaceCorrection (services : Services) (session : SessionState)
    (previous : ComposingText) : Except Failure SessionState := do
  let candidates ← requestTypoCorrections config services session previous
  match (candidates.map fun candidate => toHiragana candidate.convertedText).find?
      (fun reading => reading ≠ []) with
  | none => .ok session
  | some reading =>
    let display ← convertedReading config services.display session reading
    let previousDisplay ←
      convertedReading config services.previousDisplay session previous.surfaceText
    .ok (if display ≠ previousDisplay then
      { session with backspaceCorrection := some (display, reading) } else session)

end

end BeanKey.Engine
