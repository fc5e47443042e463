import BeanKey.LmTypo.Scorer

/-! The text that the model expects to be typed next, one grapheme after the other. Scores are
exact, as those of the typo search are. -/
namespace BeanKey.Zenz
open Packing
open LmTypo (Functions LanguageModel)

structure ZenzInputGenerationRequest (F : Type) where
  leftContext : Text
  composingText : Text
  count : Nat
  minLength : Nat
  maxEntropy : Option F
  version : ZenzVersionConfig
  possibleNexts : List Text

section
variable (unicode : UnicodeTable)

def inputPrediction (leftContext composingText : Text) : ZenzVersionConfig → Option Text
  | .v2 _ => none
  | .v3 config =>
    let left := graphemeSuffix unicode leftContext (config.maxLeftContextLength.getD 40)
    let right := graphemePrefix unicode (config.rightContext.getD [])
      (config.maxRightContextLength.getD 40)
    some ((v3Conditions unicode config).flatten ++
      (if left ≠ [] then contextTag :: left else []) ++
      (if right ≠ [] then rightContextTag :: right else []) ++ inputTag :: toKatakana composingText)

/-- Where a typed suffix waits for more, the text goes on as one of its displays does. -/
def isAllowed (possibleNexts : List Text) (candidate : Text) : Bool :=
  let allowedPrefixes := possibleNexts.filter (· ≠ [])
  allowedPrefixes.isEmpty ||
    allowedPrefixes.any fun allowed => (toKatakana candidate).isPrefixOf allowed

variable {σ F : Type} [Field F] [LinearOrder F] (functions : Functions F)
  (model : LanguageModel σ F)

/-- A token is less likely the later it stood in the prompt. -/
def tokenPenalty (promptTokens : List Token) (token : Token) : F :=
  (promptTokens.zipIdx.map fun (other, index) =>
    if other = token then 2 / ((promptTokens.length - index : Nat) : F) else 0).sum

structure BestCharacter (F : Type) where
  value : F
  character : Grapheme
  nextText : Text

structure LogitScan (F : Type) where
  sumExp : F
  sumExpValue : F
  best : Option (BestCharacter F)

def scanLogits (possibleNexts : List Text) (predicted : Text) (promptTokens : List Token) :
    Nat → List F → LogitScan F → σ → Except ZenzInferenceError (LogitScan F × σ)
  | _, [], scan, state => .ok (scan, state)
  | index, logit :: rest, scan, state =>
    match tokenOfIndex index with
    | none => .error vocabularyExceeds
    | some token =>
      let value := logit / (1 + tokenPenalty promptTokens token)
      let exponential := functions.exp value
      let summed := { scan with
        sumExp := scan.sumExp + exponential, sumExpValue := scan.sumExpValue + exponential * value }
      if scan.best.any fun best => decide (value ≤ best.value) then
        scanLogits possibleNexts predicted promptTokens (index + 1) rest summed state
      else
        match model.tokenToPiece token state with
        | (.error error, _) => .error error
        | (.ok piece, state) =>
          match (fromUtf8 piece).bind fun text => (graphemes unicode text).head? with
          | none => scanLogits possibleNexts predicted promptTokens (index + 1) rest summed state
          | some character =>
            let nextText := predicted ++ character
            scanLogits possibleNexts predicted promptTokens (index + 1) rest
              (if isAllowed possibleNexts nextText then
                { summed with best := some ⟨value, character, nextText⟩ } else summed) state

def isSentenceEnd (character : Grapheme) : Bool :=
  character ∈ ["、".toList, "。".toList, "！".toList, "？".toList]

def tooUncertain (maxEntropy : Option F) (scan : LogitScan F) : Bool :=
  maxEntropy.any fun maxEntropy =>
    decide (0 < scan.sumExp ∧ maxEntropy ≤ functions.ln scan.sumExp -
      scan.sumExpValue / scan.sumExp)

/-- The loop over the graphemes to predict, of which `predictedCount` are there. -/
def generateFrom (request : ZenzInputGenerationRequest F) (minLength vocabularySize : Nat) :
    Nat → Text → Nat → List Token → σ → Except ZenzInferenceError (Text × σ)
  | 0, predicted, _, _, state => .ok (predicted, state)
  | steps + 1, predicted, predictedCount, promptTokens, state => do
    let (logits, state) ← model.nextLogits promptTokens state
    if logits.length ≠ vocabularySize ∨ logits = [] then
      throw (LmTypo.vocabularyMismatch logits.length vocabularySize)
    else
      let (scan, state) ← scanLogits unicode functions model request.possibleNexts predicted
        promptTokens 0 logits ⟨0, 0, none⟩ state
      if minLength ≤ predictedCount ∧ tooUncertain functions request.maxEntropy scan then
        return (predicted, state)
      else
        match scan.best with
        | none => return (predicted, state)
        | some best =>
          if isSentenceEnd best.character ∧ minLength ≤ predictedCount then
            return (predicted, state)
          else
            let (appended, state) ← LmTypo.tokenizeForModel model best.character false state
            if appended = [] then return (best.nextText, state)
            else
              generateFrom request minLength vocabularySize steps best.nextText (predictedCount + 1)
                (promptTokens ++ appended) state

def generateNextInput (request : ZenzInputGenerationRequest F) (state : σ) :
    Except ZenzInferenceError (Text × σ) :=
  if request.count = 0 then .ok ([], state)
  else
    match inputPrediction unicode request.leftContext request.composingText request.version with
    | none => .ok ([], state)
    | some prompt => do
      let (promptTokens, state) ← LmTypo.tokenizeForModel model prompt true state
      generateFrom unicode functions model request (min (max request.minLength 1) request.count)
        (model.vocabularySize state) request.count [] 0 promptTokens state

end

end BeanKey.Zenz
