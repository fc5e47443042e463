import BeanKey.Library.Asking
import BeanKey.Session.Conversion
import BeanKey.Lattice.Candidate
import BeanKey.Zenz.Transparent

/-! A conversion that the model reviews: drafts under a prefix constraint, and evaluations of them
that tighten it. What it asks the converter and the evaluator is kept apart from their answers. -/
namespace BeanKey

/-! ### The session's part -/

namespace Session
open Input BeanKey.Zenz
open BeanKey.Lattice hiding Candidate

def Candidate.dictionaryText (candidate : Candidate) : Text :=
  let text := candidate.entries.flatMap DictionaryEntry.word
  if text = [] then candidate.text else text

namespace ConversionSession
variable (unicode : UnicodeTable) (session : ConversionSession)

/-- `accepted_prediction`: what was accepted, while its reading still leads. -/
def acceptedPredictionNow : Option Candidate :=
  session.acceptedPrediction.filter fun candidate =>
    candidate.reading.isPrefixOf (toKatakana session.composing.surfaceText)

def zenzModelComposing : ComposingText := session.fullComposing.getD session.composing

def pendingZenzSuffixCount (tables : InputTableRegistry) : Nat :=
  (predictiveInputSource tables session.zenzModelComposing).droppedSuffixCount

/-- An accepted spelling stays ahead of the model's constraint. -/
def constrainZenzPrefix (constraint : PrefixConstraint) : PrefixConstraint :=
  match session.acceptedPredictionNow with
  | none => constraint
  | some candidate =>
    let bytes := utf8 candidate.dictionaryText
    let constraint := if bytes.isPrefixOf constraint.bytes then constraint else { bytes }
    { constraint with
      fixedPrefix := some ⟨bytes.length, (graphemes unicode candidate.reading).length⟩ }

/-- The conversions under the constraint; `none` where the source panics. -/
def requestZenzDraft {unicode : UnicodeTable} (lookups : Lookups unicode)
    (meaningCost : Nat → Nat → ℚ) (order : HashOrder) (tables : InputTableRegistry)
    (additionalEntries : List DictionaryEntry) (session : ConversionSession) (nBest : Nat)
    (constraint : PrefixConstraint) : Option (List Candidate) :=
  let constraint := session.constrainZenzPrefix unicode constraint
  (Lattice.convert lookups meaningCost session.context nBest order tables
    { additionalEntries, constraint := if constraint.isEmpty then none else some constraint }
    session.composing).map (List.map fun candidate =>
      { text := candidate.text
        value := candidate.value
        composingCount := candidate.composingCount
        lastMeaningId := candidate.lastMeaningId
        entries := candidate.entries
        isLearningTarget := candidate.isLearningTarget })

end ConversionSession

end Session

namespace Zenz
open BeanKey.Lattice hiding Candidate
open Packing Asking
open Session (Candidate ConversionSession)

/-! ### Constraints -/

def beforeSeparator (separator : Bytes) : Bytes → Option Bytes
  | [] => none
  | byte :: rest =>
    if separator.isPrefixOf (byte :: rest) then some []
    else (beforeSeparator separator rest).map (byte :: ·)

def PrefixConstraint.normalized (bytes : Bytes)
    (defaultHasEos ignoreMemoryAndUserDictionary : Bool) : PrefixConstraint :=
  match beforeSeparator (utf8 [alignmentSeparator]) bytes with
  | some bytes => { bytes, hasEos := true, ignoreMemoryAndUserDictionary }
  | none => { bytes, hasEos := defaultHasEos, ignoreMemoryAndUserDictionary }

structure ZenzConversionCache where
  input : Text := []
  constraint : PrefixConstraint := {}
  satisfyingCandidate : Option Candidate := none
  evaluatedSatisfyingCandidate : Option Candidate := none

/-- The words of the entries, as long as the input goes on with their readings. -/
def coveredWords : Text → List DictionaryEntry → Bytes
  | _, [] => []
  | remaining, entry :: entries =>
    match stripPrefix remaining entry.ruby with
    | none => []
    | some next => utf8 entry.word ++ coveredWords next entries

def ZenzConversionCache.constraintFor (cache : ZenzConversionCache) (input : Text) :
    PrefixConstraint :=
  match cache.satisfyingCandidate with
  | some candidate => { bytes := coveredWords input candidate.entries }
  | none =>
    if cache.input.isPrefixOf input then
      { bytes := cache.constraint.bytes
        ignoreMemoryAndUserDictionary := cache.constraint.ignoreMemoryAndUserDictionary }
    else {}

/-! ### One review -/

/-- The loop over the candidates from `index` on; of equal values the last one stays. -/
def bestFrom (index : Nat) (best : Nat × Candidate) : List Candidate → Nat × Candidate
  | [] => best
  | candidate :: rest =>
    if best.2.value ≤ candidate.value then bestFrom (index + 1) (index, candidate) rest
    else bestFrom (index + 1) best rest

def bestCandidate : List Candidate → Option (Nat × Candidate)
  | [] => none
  | candidate :: rest => some (bestFrom 1 (0, candidate) rest)

def candidateSatisfies (candidate : Candidate) (constraint : PrefixConstraint) : Bool :=
  constraint.isSatisfiedBy (utf8 candidate.text)

/-- No combining voicing marks. -/
def heuristicRetryValidation (candidate : Candidate) : Bool :=
  !candidate.text.any fun character => character = '\u3099' || character = '\u309a'

def candidateUsesPersonalDictionary (candidate : Candidate) : Bool :=
  candidate.entries.any fun entry => entry.metadata.learned || entry.metadata.userDictionary

/-- Another candidate of the draft that satisfies the constraint, with its index. -/
def retryCandidate (candidates : List Candidate) (currentIndex : Nat)
    (constraint : PrefixConstraint) : Option (Nat × Candidate) :=
  (candidates.zipIdx.find? fun (candidate, index) =>
    decide (index ≠ currentIndex) && candidateSatisfies candidate constraint &&
      heuristicRetryValidation candidate).map fun (candidate, index) => (index, candidate)

inductive ReviewAction where
  | fail
  | retry (index : Nat) (candidate : Candidate)
  | research

/-- What comes after a rejection that gave `next`, and the constraint then. -/
def reviewRejection (constraint next : PrefixConstraint) (candidates : List Candidate)
    (candidateIndex : Nat) (candidate : Candidate) : ReviewAction × PrefixConstraint :=
  let retried (constraint : PrefixConstraint) : ReviewAction :=
    match retryCandidate candidates candidateIndex constraint with
    | some (index, candidate) => .retry index candidate
    | none => .research
  if constraint = next then
    if !constraint.ignoreMemoryAndUserDictionary && candidateUsesPersonalDictionary candidate then
      (retried next, { constraint with ignoreMemoryAndUserDictionary := true })
    else (.fail, constraint)
  else if constraint.bytes.isPrefixOf next.bytes then (retried next, next)
  else (.research, next)

/-! ### The conversion -/

structure ZenzConversionOptions (F : Type) where
  version : ZenzVersionConfig
  requestRichCandidates : Bool
  inferenceLimit : Nat
  personalization : Option (ZenzPersonalization F)

/-- What a conversion asks: drafts of the converter, reviews of the evaluator. -/
inductive Question (F : Type) where
  | draft (nBest : Nat) (constraint : PrefixConstraint)
  | evaluate (request : ZenzEvaluationRequest F)

abbrev Question.Answer {F : Type} : Question F → Type
  | .draft _ _ => Option (List Candidate)
  | .evaluate _ => Except ZenzInferenceError (CandidateEvaluation F)

/-- How a conversion ends: the candidate it reports, the session's candidates and the cache. -/
structure Converted where
  reviewed : Except ZenzInferenceError (Option Candidate)
  candidates : List Candidate
  cache : ZenzConversionCache

structure ConversionInput (F : Type) where
  latticeInput : Text
  modelInput : Text
  inputCursorPosition : Option Nat
  defersEvaluation : Bool
  cache : ZenzConversionCache
  options : ZenzConversionOptions F

structure Review where
  constraint : PrefixConstraint
  draft : List Candidate
  candidateIndex : Nat
  candidate : Candidate
  constructed : List Candidate
  inserted : List Candidate

section
variable {F : Type} (arithmetic : Arithmetic F) (quarter half : F) (input : ConversionInput F)

/-- The parts of a conversion that ask; `none` where the source panics. -/
abbrev Asks (F A : Type) := Program (Question F) Question.Answer (Option A)

def ConversionInput.request (constraint : PrefixConstraint) (candidate : Candidate) :
    ZenzEvaluationRequest F :=
  { input := input.modelInput
    inputCursorPosition := input.inputCursorPosition
    candidate
    requestRichCandidates := input.options.requestRichCandidates
    prefixConstraint := constraint
    personalization := input.options.personalization
    version := input.options.version }

def insertSecond (inserted : List Candidate) (candidate : Candidate) : List Candidate :=
  match inserted with
  | [] => [candidate]
  | first :: rest => first :: candidate :: rest

/-- The loop of `insert_rich_candidates`; the literals 0.25 and 0.5 are `quarter` and `half`. -/
def insertRichCandidates (constructed : List Candidate) :
    List (AlternativeConstraint F) → List Candidate → Asks F (List Candidate)
  | [], inserted => .done (some inserted)
  | alternative :: rest, inserted =>
    if arithmetic.lt quarter alternative.probabilityRatio then
      let constraint := PrefixConstraint.normalized alternative.bytes false false
      match bestCandidate (constructed.filter (candidateSatisfies · constraint)) with
      | some (_, candidate) => insertRichCandidates constructed rest
          (insertSecond inserted candidate)
      | none =>
        if arithmetic.lt half alternative.probabilityRatio then
          .ask (.draft 3 constraint) fun
            | none => .done none
            | some draft =>
              match bestCandidate draft with
              | some (_, candidate) =>
                insertRichCandidates constructed rest (insertSecond inserted candidate)
              | none => insertRichCandidates constructed rest inserted
        else insertRichCandidates constructed rest inserted
    else insertRichCandidates constructed rest inserted

def searchDraft (constraint : PrefixConstraint) (constructed inserted : List Candidate)
    (review : Review → Asks F Converted) : Asks F Converted :=
  let nBest :=
    if constraint.isEmpty then 2 else if input.options.requestRichCandidates then 3 else 1
  .ask (.draft nBest constraint) fun
    | none => .done none
    | some draft =>
      match bestCandidate draft with
      | none =>
        .done (some ⟨.ok none, inserted, { input := input.latticeInput }⟩)
      | some (candidateIndex, candidate) =>
        review
          { constraint
            draft
            candidateIndex
            candidate
            constructed := constructed ++ draft
            inserted }

def rejected (next : PrefixConstraint) (review : Review) (goOn : Review → Asks F Converted) :
    Asks F Converted :=
  let next := { next with fixedPrefix := review.constraint.fixedPrefix }
  match reviewRejection review.constraint next review.draft review.candidateIndex
    review.candidate with
  | (.fail, _) => .done (some ⟨.ok none, review.inserted, { input := input.latticeInput }⟩)
  | (.retry candidateIndex candidate, constraint) =>
    goOn { review with constraint, candidateIndex, candidate }
  | (.research, constraint) =>
    searchDraft input constraint review.constructed review.inserted goOn

def reviewLoop : Nat → Review → Asks F Converted
  | 0, review =>
    .done (some
      { reviewed := .ok none
        candidates := review.candidate :: review.inserted
        cache := ⟨input.latticeInput, review.constraint, some review.candidate, none⟩ })
  | remaining + 1, review =>
    let review := { review with inserted := review.candidate :: review.inserted }
    if input.defersEvaluation then
      let evaluated :=
        if review.constraint.isEmpty then none else input.cache.evaluatedSatisfyingCandidate
      .done (some
        { reviewed := .ok none
          candidates := review.inserted
          cache := ⟨input.latticeInput, review.constraint, evaluated, evaluated⟩ })
    else
      .ask (.evaluate (input.request review.constraint review.candidate)) fun
        | .error error => .done (some ⟨.error error, review.draft, input.cache⟩)
        | .ok (.pass _ alternatives) =>
          let finished (inserted : List Candidate) : Converted :=
            { reviewed := .ok (some review.candidate)
              candidates := inserted
              cache :=
                ⟨input.latticeInput, review.constraint, some review.candidate,
                  some review.candidate⟩ }
          if input.options.requestRichCandidates then do
            let inserted ← insertRichCandidates arithmetic quarter half review.constructed
              alternatives.reverse review.inserted
            return inserted.map finished
          else .done (some (finished review.inserted))
        | .ok (.fixRequired bytes) =>
          rejected input
            (.normalized bytes false review.constraint.ignoreMemoryAndUserDictionary) review
            (reviewLoop remaining)
        | .ok (.wholeResult result) =>
          rejected input
            (.normalized (utf8 result) true review.constraint.ignoreMemoryAndUserDictionary) review
            (reviewLoop remaining)

def conversionInput (tables : Input.InputTableRegistry) (session : ConversionSession)
    (cache : ZenzConversionCache) (options : ZenzConversionOptions F) : ConversionInput F :=
  { latticeInput := toKatakana session.composing.surfaceText
    modelInput := toKatakana session.zenzModelComposing.surfaceText
    inputCursorPosition := some session.zenzModelComposing.cursor
    defersEvaluation := !options.requestRichCandidates && options.personalization.isNone &&
      decide (0 < session.pendingZenzSuffixCount tables)
    cache
    options }

def initialConstraint (unicode : UnicodeTable) (session : ConversionSession)
    (cache : ZenzConversionCache) : PrefixConstraint :=
  session.constrainZenzPrefix unicode
    (cache.constraintFor (toKatakana session.composing.surfaceText))

def convert (unicode : UnicodeTable) (tables : Input.InputTableRegistry)
    (session : ConversionSession) (cache : ZenzConversionCache)
    (options : ZenzConversionOptions F) : Asks F Converted :=
  let input := conversionInput tables session cache options
  searchDraft input (initialConstraint unicode session cache) [] []
    (reviewLoop arithmetic quarter half input options.inferenceLimit)

end

end Zenz

end BeanKey
