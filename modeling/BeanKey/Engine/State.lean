import BeanKey.Engine.KeyEvent

/-! The state of one session, and what the client is shown of it. -/
namespace BeanKey.Engine
open Session Input Protocol

inductive InputMode where
  | none | composing | previewing | selecting | unicode
  deriving DecidableEq

structure InputPrediction where
  displayText : Text
  appendText : Text
  deleteCount : Nat
  candidate : Option Session.Candidate

inductive PredictionMode where
  | automatic | manual | disabled
  deriving DecidableEq

structure RequestOptions where
  japanesePrediction : PredictionMode := .disabled
  foreignPrediction : PredictionMode := .disabled
  keyboardLanguage : Option KeyboardLanguage := none

/-- What the daemon is configured with, and the tables all its sessions share. -/
structure EngineConfig where
  unicode : UnicodeTable
  tables : InputTableRegistry
  liveConversion : Bool := false
  lmTypoEnabled : Bool := false
  lmTypoNgram : Bool := false
  /-- The configuration loads the model where it enables the correction. -/
  ngram_loaded : lmTypoEnabled = true → lmTypoNgram = true := by decide
  learningAvailable : Bool := false
  learningWritable : Bool := false
  requestOptions : RequestOptions := {}
  defaultInputStyle : Input.InputStyle := .romanToKana
  defaultKeyboardLanguage : Option KeyboardLanguage := some .japanese
  inputBehavior : InputBehavior := {}

structure SessionState where
  conversion : ConversionSession := {}
  inputStyle : Input.InputStyle
  lastRequestId : Nat
  selectedCandidate : Nat := 0
  inputMode : InputMode := .none
  displayCandidates : List Session.Candidate := []
  candidateRemainders : List Text := []
  candidateAnnotations : List Text := []
  previewCandidateIndex : Option Nat := none
  additionalCandidateCount : Nat := 0
  segmentSurfaceCount : Option Nat := none
  lastWasBackspace : Bool := false
  prediction : Option InputPrediction := none
  /-- The display text and the target reading kept across consecutive deletions. -/
  backspaceCorrection : Option (Text × Text) := none
  liveConversionEnabled : Bool
  surrounding : SurroundingContext
  requestOptions : RequestOptions
  liveCandidate : Option Session.Candidate := none
  typoCorrections : List TypoCorrectionCandidate := []
  lmTypoAvailable : Bool
  learningAvailable : Bool
  learningWritable : Bool
  unicodeInput : Text := []
  inputLanguage : InputLanguage := .japanese

namespace SessionState

abbrev composing (session : SessionState) : ComposingText := session.conversion.composing

def clearPresentation (session : SessionState) : SessionState :=
  { session with
    selectedCandidate := 0
    displayCandidates := []
    candidateRemainders := []
    candidateAnnotations := []
    previewCandidateIndex := none
    additionalCandidateCount := 0
    prediction := none
    liveCandidate := none }

def reset (session : SessionState) : SessionState :=
  { session.clearPresentation with
    conversion := session.conversion.reset
    inputMode := .none
    segmentSurfaceCount := none
    lastWasBackspace := false
    backspaceCorrection := none
    typoCorrections := []
    unicodeInput := [] }

def currentMarkedText (session : SessionState) : Text :=
  match session.inputMode with
  | .previewing =>
    match session.previewCandidateIndex.bind (session.displayCandidates[·]?) with
    | some candidate => candidate.text
    | none => session.composing.surfaceText
  | mode =>
    match if mode = .selecting then session.displayCandidates[session.selectedCandidate]?
      else none with
    | some candidate =>
      candidate.text ++ (session.candidateRemainders[session.selectedCandidate]?).getD []
    | none => session.liveCandidate.elim session.composing.surfaceText Session.Candidate.text

end SessionState

/-! ### Predictions -/

def suffixEditPrediction (unicode : UnicodeTable) (current target display : Text) :
    Option InputPrediction :=
  let current := graphemes unicode current
  let target := graphemes unicode target
  let shared := commonPrefixLen current target
  let deleteCount := current.length - shared
  let appendText := (target.drop shared).flatten
  if 0 < deleteCount || appendText ≠ [] then some ⟨display, appendText, deleteCount, none⟩ else none

/-- The first prediction whose reading goes on from the reading typed so far. -/
def manualPrediction (surface : Text) (predictions : List Session.Candidate) :
    Option InputPrediction :=
  let deleteCount := if surface.getLast?.any isAsciiAlphabetic then 1 else 0
  let target := surface.take (surface.length - deleteCount)
  if target.length < 2 then none
  else predictions.findSome? fun candidate =>
    match stripPrefix (toHiragana candidate.reading) (toHiragana target) with
    | none | some [] => none
    | some appendText => some ⟨candidate.text, appendText, deleteCount, some candidate⟩

def inputPrediction (unicode : UnicodeTable) (session : SessionState) (result : ConversionResult) :
    Option InputPrediction :=
  let correction := session.backspaceCorrection.bind fun (display, target) =>
    suffixEditPrediction unicode session.composing.surfaceText target display
  match correction with
  | some prediction => some prediction
  | none =>
    if session.requestOptions.japanesePrediction ≠ .manual then none
    else manualPrediction session.composing.surfaceText result.predictionResults

/-! ### The response -/

def candidateToProtocol (index : Nat) (candidate : Session.Candidate) (note : Text) :
    Protocol.Candidate :=
  { text := candidate.text
    value := candidate.value
    composingCount := candidate.composingCount
    annotation := note
    index := min index u32Max }

def preeditOf (session : SessionState) : Text × Nat :=
  let surface := session.composing.surfaceText
  match session.inputMode with
  | .none => ([], 0)
  | .unicode => ("U+".toList ++ session.unicodeInput, 0)
  | .composing => (session.liveCandidate.elim surface Session.Candidate.text, 0)
  | .previewing =>
    match session.previewCandidateIndex.bind (session.displayCandidates[·]?) with
    | some candidate => (candidate.text, 0)
    | none => (surface, 0)
  | .selecting =>
    match session.displayCandidates[session.selectedCandidate]? with
    | some candidate =>
      (candidate.text ++ (session.candidateRemainders[session.selectedCandidate]?).getD [],
        min candidate.text.length u32Max)
    | none => (surface, 0)

def candidateWindowOf (session : SessionState) : CandidateWindow :=
  match session.inputMode with
  | .selecting => .selecting
  | .composing =>
    if session.inputLanguage = .japanese ∧ !session.liveConversionEnabled then .preview else .hidden
  | _ => .hidden

/-- The order of the candidates; the preview candidate leads where it is shown. -/
def candidateIndices (session : SessionState) : List Nat :=
  let indices := List.range session.displayCandidates.length
  match candidateWindowOf session with
  | .preview =>
    session.previewCandidateIndex.toList ++
      indices.filter fun index => some index ≠ session.previewCandidateIndex
  | _ => indices

def inputStateOf : InputMode → InputState
  | .none => .none
  | .composing => .composing
  | .previewing => .previewing
  | .selecting => .selecting
  | .unicode => .unicode

def makeState (session : SessionState) (consumed : Bool) (commit : Text) (reset : Bool) :
    StateResponse :=
  let preedit := preeditOf session
  { consumed
    preedit := preedit.1
    preeditCursor := min preedit.1.length u32Max
    candidates := (candidateIndices session).filterMap fun index =>
      (session.displayCandidates[index]?).map fun candidate =>
        candidateToProtocol index candidate ((session.candidateAnnotations[index]?).getD [])
    selectedCandidate := if session.inputMode = .selecting then session.selectedCandidate else -1
    commit
    reset
    lmTypoAvailable := session.lmTypoAvailable
    learningAvailable := session.learningAvailable
    learningWritable := session.learningWritable
    inputState := inputStateOf session.inputMode
    candidateWindow := candidateWindowOf session
    highlightedPreeditLength := preedit.2
    prediction :=
      if session.inputMode = .composing then
        session.prediction.map fun prediction =>
          ⟨prediction.displayText, prediction.appendText, min prediction.deleteCount u32Max⟩
      else none
    inputLanguage := some session.inputLanguage }

def emptyState (session : SessionState) (consumed : Bool) (commit : Text) (reset : Bool) :
    StateResponse :=
  { consumed
    commit
    reset
    lmTypoAvailable := session.lmTypoAvailable
    learningAvailable := session.learningAvailable
    learningWritable := session.learningWritable }

def pageCandidates (session : SessionState) (page : PageCandidates) : Option SessionState :=
  let count := session.displayCandidates.length
  if page.pageSize = 0 then none
  else if count = 0 then some session
  else
    match page.direction with
    | .previous =>
      some { session with selectedCandidate := session.selectedCandidate - page.pageSize }
    | .next =>
      some
        { session with
          selectedCandidate := min (session.selectedCandidate + page.pageSize) (count - 1) }
    | _ => none

end BeanKey.Engine
