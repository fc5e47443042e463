import BeanKey.Zenz.Generation
import BeanKey.Session.Conversion

/-! The prediction of what is typed next, and the cache that answers while the user types it. -/
namespace BeanKey.Session
open Input Zenz
open LmTypo (Functions LanguageModel)

structure ZenzPredictionCache where
  leftContext : Text
  version : ZenzVersionConfig
  inputStyle : InputStyle
  originalSurface : Text
  suffixCount : Nat
  predictedText : Text

structure NextInputSession where
  session : ConversionSession := {}
  zenzPredictionCache : Option ZenzPredictionCache := none

section
variable (unicode : UnicodeTable)

namespace ZenzPredictionCache
variable (cache : ZenzPredictionCache)

/-- The surface without as many graphemes as the pending suffix has letters. -/
def base : Text :=
  let original := graphemes unicode cache.originalSurface
  (original.take (original.length - cache.suffixCount)).flatten

def predictedInsert : Text :=
  if cache.inputStyle = .romanToKana then toHiragana cache.predictedText else cache.predictedText

def remainingPrediction (composing : ComposingText) (count : Nat) : Option Text :=
  if count = 0 then none
  else do
    let current ← stripPrefix composing.surfaceText (cache.base unicode)
    let _ ← stripPrefix cache.predictedInsert current
    let consumed := (graphemes unicode current).length
    let remaining := (((graphemes unicode cache.predictedText).drop consumed).take count).flatten
    if remaining = [] then none else some remaining

end ZenzPredictionCache

def lastInputStyle (composing : ComposingText) : InputStyle :=
  composing.input.getLast?.elim .direct InputElement.inputStyle

def predictionCache (tables : InputTableRegistry) (composing : ComposingText)
    (version : ZenzVersionConfig) (leftContext predictedText : Text) : ZenzPredictionCache where
  leftContext
  version
  inputStyle := lastInputStyle composing
  originalSurface := composing.surfaceText
  suffixCount := (predictiveInputSource tables composing).droppedSuffixCount
  predictedText

def NextInputSession.cachedPrediction (state : NextInputSession) (version : ZenzVersionConfig)
    (leftContext : Text) (count : Nat) : Option Text := do
  let cache ← state.zenzPredictionCache
  if cache.leftContext = leftContext ∧ cache.version = version ∧
      cache.inputStyle = lastInputStyle state.session.composing then
    cache.remainingPrediction unicode state.session.composing count
  else none

variable {σ F : Type} [Field F] [LinearOrder F] (functions : Functions F)
  (model : LanguageModel σ F)
  (tables : InputTableRegistry)

/-- The text, how many letters of the pending suffix it replaces, and the session behind it. -/
def predictNextInputText (state : NextInputSession) (version : ZenzVersionConfig)
    (leftContext : Text)
    (count : Nat) (maxEntropy : Option F) (answering : σ) :
    Except ZenzInferenceError ((Text × Nat) × NextInputSession × σ) := do
  match state.cachedPrediction unicode version leftContext count with
  | some prediction => return ((prediction, 0), state, answering)
  | none =>
    let composing := state.session.composing
    let source := predictiveInputSource tables composing
    let (predictedText, answering) ← generateNextInput unicode functions model
      { leftContext, composingText := source.baseSurface, count, minLength := 1, maxEntropy, version
        possibleNexts := source.possibleNexts } answering
    return ((predictedText, source.droppedSuffixCount),
      { state with zenzPredictionCache :=
          if predictedText = [] then none
          else some (predictionCache tables composing version leftContext predictedText) },
      answering)

/-- The session between two requests: any operation keeps the cache or empties it, and a request
that fails changes nothing. -/
inductive NextInputStep : NextInputSession → NextInputSession → Prop
  | edit {state : NextInputSession} (session : ConversionSession) :
      NextInputStep state { state with session }
  | discard {state : NextInputSession} (session : ConversionSession) :
      NextInputStep state { session, zenzPredictionCache := none }
  | request {state next : NextInputSession} {version : ZenzVersionConfig} {leftContext : Text}
      {count : Nat} {maxEntropy : Option F} {answering answered : σ} {prediction : Text × Nat}
      (h : predictNextInputText unicode functions model tables state version leftContext
        count maxEntropy
        answering = .ok (prediction, next, answered)) : NextInputStep state next

end

end BeanKey.Session
