import BeanKey.Session.Conversion

/-! The messages a client and the engine exchange. Offsets and counts are 32-bit there. -/
namespace BeanKey.Engine
open Session Input

def u32Max : Nat := 2 ^ 32 - 1

namespace Protocol

inductive InputStyle where
  | unspecified | direct | romanToKana | azik | kanaJis | kanaUs | custom | unknown
  deriving DecidableEq

inductive KeyboardLanguage where
  | unspecified | japanese | englishUs | greek | unknown
  deriving DecidableEq

structure SurroundingText where
  available : Bool
  text : Text
  cursor : Nat
  anchor : Nat

structure StartSession where
  inputStyle : InputStyle
  surroundingText : Option SurroundingText
  keyboardLanguage : KeyboardLanguage
  customInputTable : Text

inductive UserAction where
  | unspecified | input | backspace | deleteForward | enter | escape | space | tab
  | left | right | up | down | pageUp | pageDown | forget
  | hiragana | katakana | halfWidthKatakana | fullWidthRoman | halfWidthRoman
  | consume | startUnicodeInput | eisu | kana
  deriving DecidableEq

structure KeyEvent where
  action : UserAction
  shift : Bool := false
  text : Text := []
  surroundingText : Option SurroundingText := none
  input : Text := []
  intention : Text := []
  option : Bool := false

inductive Direction where
  | unspecified | previous | next | unknown
  deriving DecidableEq

structure PageCandidates where
  direction : Direction
  pageSize : Nat

structure Candidate where
  text : Text
  value : ℚ
  composingCount : ComposingCount
  annotation : Text
  index : Nat

inductive InputState where
  | none | composing | previewing | selecting | unicode
  deriving DecidableEq

inductive InputLanguage where
  | japanese | english
  deriving DecidableEq

inductive CandidateWindow where
  | hidden | preview | selecting
  deriving DecidableEq

structure Prediction where
  displayText : Text
  appendText : Text
  deleteCount : Nat

structure StateResponse where
  consumed : Bool := false
  preedit : Text := []
  preeditCursor : Nat := 0
  candidates : List Candidate := []
  selectedCandidate : Int := 0
  commit : Text := []
  reset : Bool := false
  lmTypoAvailable : Bool := false
  learningAvailable : Bool := false
  learningWritable : Bool := false
  inputState : InputState := .none
  candidateWindow : CandidateWindow := .hidden
  highlightedPreeditLength : Nat := 0
  prediction : Option Prediction := none
  inputLanguage : Option InputLanguage := none

structure TypoCorrectionCandidate where
  correctedInput : Text
  convertedText : Text

inductive Code where
  | unsupportedVersion | invalidPayload | messageTooLarge | unknownSession
  | outOfOrderRequest | internal
  deriving DecidableEq

inductive Payload where
  | startSession (start : StartSession)
  | resetSession
  | endSession
  | keyEvent (event : KeyEvent)
  | selectCandidate (index : Nat)
  | pageCandidates (page : PageCandidates)
  | commitComposition
  | forgetCandidate (index : Nat)
  | resetLearning
  | requestTypoCorrections
  | selectTypoCorrection (index : Nat)
  | stateResponse (response : StateResponse)
  | typoCorrectionResponse (candidates : List TypoCorrectionCandidate)
  | protocolError (code : Code) (message : String)

structure Envelope where
  requestId : Nat
  sessionId : String
  payload : Option Payload

end Protocol

structure Failure where
  code : Protocol.Code
  message : String

end BeanKey.Engine
