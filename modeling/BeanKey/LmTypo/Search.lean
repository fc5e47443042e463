import BeanKey.LmTypo.Scorer
import BeanKey.Library.Keyed

/-! The search of the typo correction: a beam of hypotheses about what was meant by the typed keys.
Each round takes every hypothesis one edit further. -/
namespace BeanKey.LmTypo
open BeanKey.Input BeanKey.Zenz

structure LmTypoConfig (F : Type) where
  beamSize : Nat := 32
  topK : Nat := 64
  nBest : Nat := 5
  maxSteps : Option Nat := none
  substitutionCost : F
  deletionCost : F
  transpositionCost : F

def LmTypoConfig.atLeastOne {F : Type} (config : LmTypoConfig F) : LmTypoConfig F :=
  { config with
    beamSize := max config.beamSize 1, topK := max config.topK 1, nBest := max config.nBest 1 }

def LmTypoConfig.default {F : Type} [Field F] : LmTypoConfig F :=
  { substitutionCost := 2, deletionCost := 3, transpositionCost := 2 }

structure LmTypoCandidate (F : Type) where
  correctedInput : Text
  convertedText : Text
  score : F
  lmScore : F
  channelCost : F
  prominence : F

structure Hypothesis (F : Type) where
  corrected : List Text
  emittedText : Text
  emittedTokens : List Token
  observedPosition : Nat
  previousInput : Option Text
  pending : Text
  proxyLogProbability : F
  channelCost : F
  lmScore : F
  score : F
  deriving DecidableEq

def Hypothesis.initial {F : Type} [Field F] : Hypothesis F where
  corrected := []
  emittedText := []
  emittedTokens := []
  observedPosition := 0
  previousInput := none
  pending := []
  proxyLogProbability := 0
  channelCost := 0
  lmScore := 0
  score := 0

def typoCorrectionPrefix (leftContext : Text) : Text :=
  if leftContext = [] then [inputTag] else contextTag :: leftContext ++ [inputTag]

section
variable {σ F : Type} [Field F] [LinearOrder F] (unicode : UnicodeTable) (functions : Functions F)
  (model : LanguageModel σ F)

/-- The keys one after the other, with what was emitted before. -/
def consume (table : Option InputTable) (state : Text × Text) (character : Text) : Text × Text :=
  let (emitted, pending) := consumeWithEmission unicode state.2 character table
  (state.1 ++ emitted, pending)

/-! ### One edit further -/

/-- The proxy of the parent gives way to the emitted tokens and the new proxy. The source's
`unreachable!` stands where an empty pending text has no proxy, and it always has one. -/
def evaluateAdvance (table : Option InputTable) (parent : Hypothesis F)
    (correctedAppend : List Text)
    (observedCount : Nat) (channelAddition : F) (emitted pending : Text) :
    Scoring σ F (Option (Hypothesis F)) := do
  if !functions.isFinite parent.proxyLogProbability then return none
  else
    match ← appendAndScore functions model parent.emittedTokens emitted with
    | none => return none
    | some (emittedTokens, emittedScore) =>
      match ← pendingProxyLogProbability unicode functions model pending emittedTokens table with
      | none => return none
      | some proxy =>
        let lmScore := parent.lmScore - parent.proxyLogProbability + emittedScore + proxy
        let channelCost := parent.channelCost + channelAddition
        return some {
          corrected := parent.corrected ++ correctedAppend
          emittedText := parent.emittedText ++ emitted
          emittedTokens
          observedPosition := parent.observedPosition + observedCount
          previousInput := correctedAppend.getLast?
          pending
          proxyLogProbability := proxy
          channelCost
          lmScore
          score := lmScore - channelCost }

/-- What is pushed for a sequence of keys. At the end of the input only the typed key may leave
something pending. -/
def addAdvance (observed : List Text) (table : Option InputTable) (parent : Hypothesis F)
    (trueSequence : List Text) (observedCount : Nat) (channelAddition : F) :
    Scoring σ F (List (Hypothesis F)) := do
  match trueSequence.getLast? with
  | none => return []
  | some last =>
    let (emitted, pending) := trueSequence.foldl (consume unicode table) ([], parent.pending)
    let finalObservedIndex := parent.observedPosition + observedCount - 1
    if finalObservedIndex = observed.length - 1 ∧ pending ≠ [] ∧
        (observed[finalObservedIndex]? ≠ some last ∨ 0 < channelAddition) then return []
    else
      let next ← evaluateAdvance unicode functions model table parent trueSequence observedCount
        channelAddition emitted pending
      return next.toList

/-- The typed key and its neighbours, with what they cost. -/
def advanceTargets (mode : GenerationMode) (config : LmTypoConfig F) (parent : Hypothesis F)
    (current : Text) : Scoring σ F (List (Text × F)) := do
  let substitutions := neighbors unicode functions.sqrt current mode.topology
  let substitutions ←
    if mode.filterWithLm then do
      let likely ← topCharacters unicode functions model parent.emittedTokens config.topK
      pure (substitutions.filter fun (candidate, _) => candidate ∈ likely)
    else pure substitutions
  return (current, 0) :: substitutions.map fun (target, distance) =>
    (target, config.substitutionCost * distance)

/-- The key is left out where it lies next to the one before. -/
def deletion (observed : List Text) (mode : GenerationMode) (config : LmTypoConfig F)
    (parent : Hypothesis F) (current : Text) : Scoring σ F (List (Hypothesis F)) := do
  let distance := do
    let previous ← parent.previousInput
    (neighbors unicode functions.sqrt previous mode.topology).findSome? fun (neighbor, distance) =>
      if neighbor = current then some distance else none
  match distance with
  | none => return []
  | some distance =>
    if parent.observedPosition + 1 < observed.length then do
      match ← pendingProxyLogProbability unicode functions model parent.pending parent.emittedTokens
          mode.table with
      | none => return []
      | some proxy =>
        let channelCost := parent.channelCost + config.deletionCost * distance
        let lmScore := parent.lmScore - parent.proxyLogProbability + proxy
        return [{ parent with
          observedPosition := parent.observedPosition + 1
          channelCost
          proxyLogProbability := proxy
          lmScore
          score := lmScore - channelCost }]
    else return []

def transposition (observed : List Text) (mode : GenerationMode) (config : LmTypoConfig F)
    (parent : Hypothesis F) (current : Text) : Scoring σ F (List (Hypothesis F)) := do
  match observed[parent.observedPosition + 1]? with
  | none => return []
  | some following =>
    if current ≠ following then
      addAdvance unicode functions model observed mode.table parent [following, current] 2
        config.transpositionCost
    else return []

/-- Only hypotheses before the end of the input are expanded. -/
def expandHypothesis (observed : List Text) (mode : GenerationMode) (config : LmTypoConfig F)
    (hypothesis : Hypothesis F) : Scoring σ F (List (Hypothesis F)) := do
  match observed[hypothesis.observedPosition]? with
  | none => return []
  | some current =>
    let targets ← advanceTargets unicode functions model mode config hypothesis current
    let advanced ← targets.mapM fun (target, channelAddition) =>
      addAdvance unicode functions model observed mode.table hypothesis [target] 1 channelAddition
    let deleted ← deletion unicode functions model observed mode config hypothesis current
    let transposed ← transposition unicode functions model observed mode config hypothesis current
    return advanced.flatten ++ deleted ++ transposed

/-! ### The rounds -/

def compareHypotheses (left right : Hypothesis F) : Ordering :=
  (compare right.score left.score).then (compare left.corrected right.corrected)

/-- A round: the hypotheses at the end of the input stay, the others are expanded, and the best
ones are kept. `none` where nothing is left. -/
def searchRound (observed : List Text) (mode : GenerationMode) (config : LmTypoConfig F)
    (beam : List (Hypothesis F)) : Scoring σ F (Option (List (Hypothesis F))) := do
  let expanded ← beam.mapM fun hypothesis =>
    if hypothesis.observedPosition = observed.length then pure [hypothesis]
    else expandHypothesis unicode functions model observed mode config hypothesis
  if expanded.flatten = [] then return none
  else
    return some ((expanded.flatten.mergeSort fun left right =>
      (compareHypotheses left right).isLE).take config.beamSize)

def searchLoop (observed : List Text) (mode : GenerationMode) (config : LmTypoConfig F) :
    Nat → List (Hypothesis F) → Scoring σ F (List (Hypothesis F))
  | 0, beam => return beam
  | steps + 1, beam => do
    if beam.all fun hypothesis => hypothesis.observedPosition = observed.length then return beam
    else
      match ← searchRound unicode functions model observed mode config beam with
      | none => return beam
      | some next => searchLoop observed mode config steps next

/-! ### The result -/

/-- What is left of the input is taken as it was typed. -/
def completeHypothesis (observed : List Text) (table : Option InputTable)
    (hypothesis : Hypothesis F) :
    Scoring σ F (Option (Hypothesis F)) := do
  if observed.length ≤ hypothesis.observedPosition then return some hypothesis
  else if !functions.isFinite hypothesis.proxyLogProbability then return none
  else
    let remaining := observed.drop hypothesis.observedPosition
    let (newlyEmitted, pending) := remaining.foldl (consume unicode table) ([], hypothesis.pending)
    match ← appendAndScore functions model hypothesis.emittedTokens newlyEmitted with
    | none => return none
    | some (emittedTokens, emittedScore) =>
      match ← pendingProxyLogProbability unicode functions model pending emittedTokens table with
      | none => return none
      | some proxy =>
        let lmScore := hypothesis.lmScore - hypothesis.proxyLogProbability + emittedScore + proxy
        return some { hypothesis with
          corrected := hypothesis.corrected ++ remaining
          emittedText := hypothesis.emittedText ++ newlyEmitted
          emittedTokens
          observedPosition := observed.length
          previousInput := remaining.getLast?
          pending
          proxyLogProbability := proxy
          lmScore
          score := lmScore - hypothesis.channelCost }

def Hypothesis.candidate (hypothesis : Hypothesis F) : LmTypoCandidate F where
  correctedInput := hypothesis.corrected.flatten
  convertedText := hypothesis.emittedText ++ hypothesis.pending
  score := hypothesis.score
  lmScore := hypothesis.lmScore
  channelCost := hypothesis.channelCost
  prominence := 0

def bestCandidates (config : LmTypoConfig F) (completed : List (Hypothesis F)) :
    List (LmTypoCandidate F) :=
  let unique := (completed.map Hypothesis.candidate).foldl
    (Keyed.insert LmTypoCandidate.correctedInput fun existing candidate =>
      existing.score < candidate.score) []
  let candidates := (unique.mergeSort fun left right =>
    ((compare right.score left.score).then
      (compare left.correctedInput right.correctedInput)).isLE).take config.nBest
  match candidates.head? with
  | none => candidates
  | some best => candidates.map fun candidate =>
    { candidate with prominence := functions.exp (candidate.score - best.score) }

def search (observed : List Text) (mode : GenerationMode) (config : LmTypoConfig F) :
    Scoring σ F (List (LmTypoCandidate F)) := do
  let beam ← searchLoop unicode functions model observed mode config
    (config.maxSteps.getD (observed.length * 2 + 8)) [Hypothesis.initial]
  let completed ← beam.mapM fun hypothesis => do
    let done ← completeHypothesis unicode functions model observed mode.table hypothesis
    return done.toList
  let original ← completeHypothesis unicode functions model observed mode.table Hypothesis.initial
  return bestCandidates functions config (completed.flatten ++ original.toList)

def experimentalTypoCorrection (lowercase : Text → Text) (leftContext : Text)
    (composing : ComposingText) (inputStyle : InputStyle) (tables : InputTableRegistry)
    (config : LmTypoConfig F) (state : σ) : Except ZenzInferenceError
    (List (LmTypoCandidate F)) := do
  let mode := generationMode inputStyle tables
  let observed := observedInput unicode lowercase composing mode.useSurface
  if observed = [] then return []
  else
    let scorer ← LmScorer.new model state (typoCorrectionPrefix leftContext)
    let (candidates, _) ← search unicode functions model observed mode config.atLeastOne scorer
    return candidates

end

end BeanKey.LmTypo
