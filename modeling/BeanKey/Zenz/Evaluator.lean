import BeanKey.Zenz.Model
import BeanKey.Library.Lru

/-! The evaluator: a review of a candidate under its prompt, with two caches and a memory of the
last prompt. -/
namespace BeanKey.Zenz
open BeanKey.Lattice Packing

/-! ### Requests behind a fixed prefix -/

section
variable {F : Type} (unicode : UnicodeTable)

/-- The entries from the first one on that reaches behind the fixed bytes. -/
def droppingFixedEntries (covered byteCount : Nat) : List DictionaryEntry → List DictionaryEntry
  | [] => []
  | entry :: rest =>
    let next := covered + (utf8 entry.word).length
    if byteCount < next then entry :: rest else droppingFixedEntries next byteCount rest

inductive FixedRequest (F : Type) where
  | asIs
  | invalid (error : ZenzInferenceError)
  | behind (fixed : Bytes) (fixedText : Text) (request : ZenzEvaluationRequest F)

/-- `fixed` is a text, so its end is a boundary of the candidate's. -/
def fixedRequest (request : ZenzEvaluationRequest F) : FixedRequest F :=
  match request.prefixConstraint.fixedPrefix with
  | none => .asIs
  | some ⟨byteCount, rubyCount⟩ =>
    let candidateBytes := utf8 request.candidate.text
    let fixed := request.prefixConstraint.bytes.take byteCount
    if byteCount = 0 ∨ candidateBytes.length < byteCount ∨
        request.prefixConstraint.bytes.length < byteCount ∨
        ¬fixed.isPrefixOf candidateBytes ∨
        (graphemes unicode request.input).length < rubyCount ∨
        request.inputCursorPosition.any fun position => decide (position < rubyCount) then
      .asIs
    else
      match fromUtf8 fixed with
      | none => .invalid (.message ("fixed prefix is not UTF-8: " ++ utf8Error fixed))
      | some fixedText => .behind fixed fixedText {
          input := ((graphemes unicode request.input).drop rubyCount).flatten
          inputCursorPosition := request.inputCursorPosition.map fun position =>
            position - rubyCount
          candidate := { request.candidate with
            text := Dictionary.fromUtf8Lossy (candidateBytes.drop byteCount)
            entries := droppingFixedEntries 0 byteCount request.candidate.entries }
          requestRichCandidates := request.requestRichCandidates
          prefixConstraint := { request.prefixConstraint with
            bytes := request.prefixConstraint.bytes.drop byteCount, fixedPrefix := none }
          personalization := request.personalization
          version := appendingLeftContext request.version fixedText }

def prependFixed (fixed : Bytes) (fixedText : Text) : CandidateEvaluation F → CandidateEvaluation F
  | .pass score alternatives =>
    .pass score (alternatives.map fun alternative =>
      { alternative with bytes := fixed ++ alternative.bytes })
  | .fixRequired bytes => .fixRequired (fixed ++ bytes)
  | .wholeResult result => .wholeResult (fixedText ++ result)

/-! ### What a request is evaluated from -/

def userDictionaryPrompt (candidate : Session.Candidate) : Text :=
  (candidate.entries.filter fun entry => entry.metadata.userDictionary).flatMap fun entry =>
    entry.word ++ '(' :: toHiragana entry.ruby ++ [')']

namespace ZenzEvaluationRequest
variable (request : ZenzEvaluationRequest F)

def prompt : Text :=
  candidateEvaluation unicode request.input request.inputCursorPosition
    (userDictionaryPrompt request.candidate) request.version

def candidateText : Text :=
  candidateTextForEvaluation unicode request.candidate.text request.input
    request.inputCursorPosition request.version

end ZenzEvaluationRequest

/-- The graphemes of the candidate that the constraint already gives, from `start` on. -/
def addressedFrom (bytes : Bytes) (start : Text) : List Grapheme → Text
  | [] => start
  | grapheme :: rest =>
    if (utf8 (start ++ grapheme)).isPrefixOf bytes then addressedFrom bytes (start ++ grapheme) rest
    else start

def addressedPrefix (request : ZenzEvaluationRequest F) : Text :=
  addressedFrom request.prefixConstraint.bytes [] (graphemes unicode request.candidate.text)

variable (arithmetic : Arithmetic F) (model : ZenzLanguageModel F)

def addressedTokenCount (reusesAddressedPrefix : Bool) (request : ZenzEvaluationRequest F) :
    Except ZenzInferenceError Nat :=
  if reusesAddressedPrefix then
    if addressedPrefix unicode request = [] then .ok 0
    else (tokenizeForModel model (addressedPrefix unicode request) false).map List.length
  else .ok 0

def evaluateWith (promptTokens : List Token) (reusesAddressedPrefix : Bool)
    (request : ZenzEvaluationRequest F) : Except ZenzInferenceError (CandidateEvaluation F) := do
  let addressed ← addressedTokenCount unicode model reusesAddressedPrefix request
  evaluateCandidateTokens unicode arithmetic model request promptTokens
    (request.candidateText unicode) addressed

/-! ### Without caches -/

def evaluateUncachedAsIs (reusesAddressedPrefix : Bool) (request : ZenzEvaluationRequest F) :
    Except ZenzInferenceError (CandidateEvaluation F) := do
  let promptTokens ← tokenizeForModel model (request.prompt unicode) true
  evaluateWith unicode arithmetic model promptTokens reusesAddressedPrefix request

/-- An evaluation that keeps nothing, told whether the addressed prefix is reused. -/
def evaluateUncached (reusesAddressedPrefix : Bool) (request : ZenzEvaluationRequest F) :
    Except ZenzInferenceError (CandidateEvaluation F) :=
  match fixedRequest unicode request with
  | .asIs => evaluateUncachedAsIs unicode arithmetic model reusesAddressedPrefix request
  | .invalid error => .error error
  | .behind fixed fixedText remaining =>
    (evaluateUncachedAsIs unicode arithmetic model reusesAddressedPrefix remaining).map
      (prependFixed fixed fixedText)

end

/-! ### With caches -/

structure CandidateSegment where
  word : Text
  ruby : Text
  isLearned : Bool
  deriving DecidableEq

structure EvaluationCacheKey where
  prompt : Text
  candidateTextForEvaluation : Text
  originalCandidateText : Text
  prefixConstraint : PrefixConstraint
  requestRichCandidates : Bool
  reusesAddressedPrefix : Bool
  candidateSegments : List CandidateSegment
  deriving DecidableEq

structure ZenzEvaluator (F : Type) where
  evaluations : LruCache EvaluationCacheKey (CandidateEvaluation F)
  promptTokens : LruCache Text (List Token)
  previousEvaluationPrompt : Text

namespace ZenzEvaluator

def new {F : Type} (evaluations promptTokens : Nat) : ZenzEvaluator F :=
  ⟨.new evaluations, .new promptTokens, []⟩

variable {F : Type} (unicode : UnicodeTable)

/-- The prompt is that of the last evaluation, and no rich candidates are asked for. -/
def reusesAddressedPrefix (evaluator : ZenzEvaluator F) (request : ZenzEvaluationRequest F) :
    Bool :=
  evaluator.previousEvaluationPrompt = normalizeForModel (request.prompt unicode) &&
    !request.requestRichCandidates

/-- A personalized evaluation is not cached. -/
def cacheKey (reusesAddressedPrefix : Bool) (request : ZenzEvaluationRequest F) :
    Option EvaluationCacheKey :=
  if request.personalization.isNone then
    some {
      prompt := request.prompt unicode
      candidateTextForEvaluation := request.candidateText unicode
      originalCandidateText := request.candidate.text
      prefixConstraint := request.prefixConstraint
      requestRichCandidates := request.requestRichCandidates
      reusesAddressedPrefix
      candidateSegments := request.candidate.entries.map fun entry =>
        ⟨entry.word, entry.ruby, entry.metadata.learned⟩ }
  else none

def getEvaluation (evaluator : ZenzEvaluator F) (key : Option EvaluationCacheKey) :
    Option (CandidateEvaluation F) × ZenzEvaluator F :=
  match key with
  | none => (none, evaluator)
  | some key =>
    let (found, evaluations) := evaluator.evaluations.get key
    (found, { evaluator with evaluations })

def insertEvaluation (evaluator : ZenzEvaluator F) (key : Option EvaluationCacheKey)
    (result : CandidateEvaluation F) : ZenzEvaluator F :=
  match key with
  | none => evaluator
  | some key => { evaluator with evaluations := evaluator.evaluations.insert key result }

variable (arithmetic : Arithmetic F) (model : ZenzLanguageModel F)

def getPromptTokens (evaluator : ZenzEvaluator F) (prompt : Text) :
    Except ZenzInferenceError (List Token) × ZenzEvaluator F :=
  match evaluator.promptTokens.get prompt with
  | (some tokens, promptTokens) => (.ok tokens, { evaluator with promptTokens })
  | (none, promptTokens) =>
    match tokenizeForModel model prompt true with
    | .error error => (.error error, { evaluator with promptTokens })
    | .ok tokens =>
      (.ok tokens, { evaluator with promptTokens := promptTokens.insert prompt tokens })

def evaluateAsIs (evaluator : ZenzEvaluator F) (request : ZenzEvaluationRequest F) :
    Except ZenzInferenceError (CandidateEvaluation F) × ZenzEvaluator F :=
  let reuses := evaluator.reusesAddressedPrefix unicode request
  let key := cacheKey unicode reuses request
  let evaluator :=
    { evaluator with previousEvaluationPrompt := normalizeForModel (request.prompt unicode) }
  match evaluator.getEvaluation key with
  | (some cached, evaluator) => (.ok cached, evaluator)
  | (none, evaluator) =>
    match evaluator.getPromptTokens model (request.prompt unicode) with
    | (.error error, evaluator) => (.error error, evaluator)
    | (.ok promptTokens, evaluator) =>
      match evaluateWith unicode arithmetic model promptTokens reuses request with
      | .error error => (.error error, evaluator)
      | .ok result => (.ok result, evaluator.insertEvaluation key result)

def evaluate (evaluator : ZenzEvaluator F) (request : ZenzEvaluationRequest F) :
    Except ZenzInferenceError (CandidateEvaluation F) × ZenzEvaluator F :=
  match fixedRequest unicode request with
  | .asIs => evaluator.evaluateAsIs unicode arithmetic model request
  | .invalid error => (.error error, evaluator)
  | .behind fixed fixedText remaining =>
    let (result, evaluator) := evaluator.evaluateAsIs unicode arithmetic model remaining
    (result.map (prependFixed fixed fixedText), evaluator)

end ZenzEvaluator

end BeanKey.Zenz
