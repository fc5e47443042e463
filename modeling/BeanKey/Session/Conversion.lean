import BeanKey.Session.Candidate

/-! The conversion session: the composing text and what its edits keep in step with it.
The caches and memories only a conversion reads are left to the answers of the services. -/
namespace BeanKey.Session
open Input BeanKey.Lattice

structure ConversionSession where
  composing : ComposingText := {}
  fullComposing : Option ComposingText := none
  candidates : List Candidate := []
  context : ConversionContext := {}
  lastCommitted : Option Candidate := none
  acceptedPrediction : Option Candidate := none

namespace ConversionSession

variable (unicode : UnicodeTable) (tables : InputTableRegistry)

def retainPredictionPrefix (session : ConversionSession) : ConversionSession :=
  { session with
    acceptedPrediction := session.acceptedPrediction.filter fun candidate =>
      candidate.reading.isPrefixOf (toKatakana session.composing.surfaceText) }

/-- Completes an applicable prediction's reading. `none` is the source's `false`, where
nothing changes. -/
def acceptPredictionCandidate (session : ConversionSession) (candidate : Candidate) :
    Option ConversionSession :=
  if session.composing.isEmpty || !session.composing.isAtEnd then none
  else
    let source := predictiveInputSource tables session.composing
    match stripPrefix (toHiragana candidate.reading) (toHiragana source.baseSurface) with
    | none | some [] => none
    | some remaining =>
      let composing :=
        if 0 < source.droppedSuffixCount then
          session.composing.deleteBackward tables source.droppedSuffixCount
        else session.composing
      some
        { session with
          composing := composing.insertStr unicode tables remaining .direct
          candidates := []
          lastCommitted := none
          acceptedPrediction := some candidate }

def beginSegmentRequest (session : ConversionSession) : ConversionSession :=
  if session.fullComposing.isSome || session.composing.isAtEnd then session
  else
    { session with
      composing := session.composing.prefixToCursor tables
      fullComposing := some session.composing }.retainPredictionPrefix

def endSegmentRequest (session : ConversionSession) : ConversionSession :=
  match session.fullComposing with
  | some full => { session with composing := full, fullComposing := none }
  | none => session

/-- What every edit does after it changed the composing text. -/
def edited (session : ConversionSession) (composing : ComposingText) : ConversionSession :=
  { session with composing, candidates := [], lastCommitted := none }

def insertStr (session : ConversionSession) (value : Text) (inputStyle : InputStyle) :
    ConversionSession :=
  (session.edited
    (session.composing.insertStr unicode tables value inputStyle)).retainPredictionPrefix

def insertKey (session : ConversionSession) (intention : Option Text) (input : Text)
    (modifiers : Finset InputModifier) (inputStyle : InputStyle) : ConversionSession :=
  (session.edited (session.composing.insert tables
    [⟨.key intention input modifiers, inputStyle⟩])).retainPredictionPrefix

def insertCompositionSeparator (session : ConversionSession) (inputStyle : InputStyle) :
    ConversionSession :=
  if session.composing.input.getLast?.map InputElement.piece = some .compositionSeparator then
    session
  else session.edited (session.composing.insert tables [⟨.compositionSeparator, inputStyle⟩])

def deleteBackward (session : ConversionSession) (count : Nat) : ConversionSession :=
  let session :=
    (session.edited (session.composing.deleteBackward tables count)).retainPredictionPrefix
  if session.composing.isEmpty then { session with context := {} } else session

def moveCursor (session : ConversionSession) (count : Int) : ConversionSession :=
  session.edited (session.composing.moveCursor count).1

/-- The desktop's representations of a candidate's reading, or of the whole surface, with
their annotations. -/
def desktopAdditionalCandidates (session : ConversionSession) (selected : Option Candidate) :
    List (Candidate × Text) :=
  let surface := selected.elim session.composing.surfaceText Candidate.reading
  let composingCount :=
    selected.elim (.input session.composing.input.length) Candidate.composingCount
  let typed := selected.elim (rawInput session.composing.input) fun candidate =>
    let remaining := session.composing.completePrefix tables candidate.composingCount
    rawInput (session.composing.input.take
      (session.composing.input.length - remaining.input.length))
  let katakana := toKatakana surface
  [(typed, "英数"), (toFullWidth typed, "全角英数"), (toHalfWidth katakana, "半角カナ"),
    (katakana, "カタカナ"), (toHiragana surface, "ひらがな")].map fun (text, annotation) =>
      ({ text
         value := 0
         composingCount
         lastMeaningId := 501
         entries :=
           [{ word := text
              ruby := toKatakana surface
              leftId := 1288
              rightId := 1288
              meaningId := 501
              baseValue := 0 }]
         isLearningTarget := false }, annotation.toList)

/-- `select_candidate_value`, up to what the learning memory records. -/
def selectCandidateValue (session : ConversionSession) (candidate : Candidate) :
    ConversionSession :=
  let session :=
    { session with
      composing := session.composing.completePrefix tables candidate.composingCount
      acceptedPrediction := none
      context := candidate.entries.getLast?.elim session.context fun last =>
        ⟨last.rightId, candidate.lastMeaningId⟩
      candidates := []
      lastCommitted := some candidate }
  if session.composing.isEmpty then
    { session with composing := session.composing.stop, context := {} }
  else session

/-- What stays in the composition once a candidate is committed. -/
def remainingAfterCandidate (session : ConversionSession) (candidate : Candidate) : Text :=
  (session.composing.completePrefix tables candidate.composingCount).surfaceText

def desktopCandidates (session : ConversionSession) (result : ConversionResult) :
    List Candidate :=
  if result.firstClauseResults.any fun candidate =>
      (session.remainingAfterCandidate tables candidate).isEmpty then
    result.mainResults
  else result.mergedDesktopCandidates

def consumedSurfaceCount (session : ConversionSession) (candidate : Candidate) : Nat :=
  let composing := session.composing.completePrefix tables candidate.composingCount
  session.composing.surface.length - composing.surface.length

def reset (session : ConversionSession) : ConversionSession :=
  { session with
    composing := session.composing.stop
    candidates := []
    context := {}
    lastCommitted := none
    acceptedPrediction := none }

end ConversionSession

end BeanKey.Session
