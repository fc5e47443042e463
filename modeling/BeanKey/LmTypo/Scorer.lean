import BeanKey.LmTypo.Consume
import BeanKey.Library.Caching
import BeanKey.Zenz.Model

/-! The scorer of the typo search: what the language model says of the tokens emitted so far, with
four caches. Scores are exact: they lie in an ordered field, with the functions the code calls on
it as parameters. -/
namespace BeanKey.LmTypo
open BeanKey.Input BeanKey.Zenz Caching Packing

instance atLeastTwo : Nat.AtLeastTwo 2 := ⟨le_rfl⟩

structure Functions (F : Type) where
  exp : F → F
  ln : F → F
  sqrt : F → F
  isFinite : F → Bool

/-- A model whose answers may depend on what it was asked before. -/
structure LanguageModel (σ F : Type) where
  vocabularySize : σ → Nat
  tokenize : Text → Bool → σ → Except ZenzInferenceError (List Token × σ)
  tokenToPiece : Token → σ → Except ZenzInferenceError Bytes × σ
  nextLogits : List Token → σ → Except ZenzInferenceError (List F × σ)

structure LmScorer (σ F : Type) where
  model : σ
  promptTokens : List Token
  tokenCache : Cache Text (List Token) := Cache.empty
  distributionCache : Cache (List Token) (List F) := Cache.empty
  pendingTokenCache : Cache Text (List Token) := Cache.empty
  pendingScoreCache : Cache (List Token × Text) F := Cache.empty

abbrev Scoring (σ F α : Type) := StateT (LmScorer σ F) (Except ZenzInferenceError) α

section
variable {σ F : Type} [Field F] [LinearOrder F] (unicode : UnicodeTable) (functions : Functions F)
  (model : LanguageModel σ F)

def tokenizeForModel (value : Text) (addSpecial : Bool) (state : σ) :
    Except ZenzInferenceError (List Token × σ) :=
  model.tokenize (normalizeForModel value) addSpecial state

def LmScorer.new (state : σ) (prompt : Text) : Except ZenzInferenceError (LmScorer σ F) := do
  let (promptTokens, state) ← tokenizeForModel model prompt false state
  return { model := state, promptTokens }

def callModel {α : Type} (call : σ → Except ZenzInferenceError (α × σ)) : Scoring σ F α :=
  fun scorer => (call scorer.model).map fun (answer, state) =>
    (answer, { scorer with model := state })

def tokenize (text : Text) : Scoring σ F (List Token) := do
  match (← get).tokenCache text with
  | some tokens => return tokens
  | none =>
    let tokens ← callModel (tokenizeForModel model text false)
    modify fun scorer => { scorer with tokenCache := scorer.tokenCache.insert text tokens }
    return tokens

/-! ### Distributions -/

/-- The logits less the logarithm of the sum of their exponentials. -/
def logProbabilities (logits : List F) : List F :=
  match logits.max? with
  | none => []
  | some maximum =>
    let sum := (logits.map fun value => functions.exp (value - maximum)).sum
    logits.map fun value => value - (maximum + functions.ln sum)

def vocabularyMismatch (logits vocabularySize : Nat) : ZenzInferenceError :=
  .message ("model returned " ++ toString logits ++ " logits for a vocabulary of " ++
    toString vocabularySize)

def nextLogProbabilities (emittedTokens : List Token) : Scoring σ F (List F) := do
  match (← get).distributionCache emittedTokens with
  | some probabilities => return probabilities
  | none =>
    let asked ← get
    let logits ← callModel (model.nextLogits (asked.promptTokens ++ emittedTokens))
    let answered ← get
    if logits.length ≠ model.vocabularySize answered.model ∨ logits = [] then
      throw (vocabularyMismatch logits.length (model.vocabularySize answered.model))
    else
      modify fun scorer => { scorer with
        distributionCache :=
          scorer.distributionCache.insert emittedTokens (logProbabilities functions logits) }
      return logProbabilities functions logits

/-- What a distribution says of a token; `none` where it is no index of it. -/
def probabilityOf (probabilities : List F) (token : Token) : Option F :=
  if token < 0 then none else probabilities[token.toNat]?

/-! ### Emitted tokens -/

def scoreTokens : List Token → F → List Token → Scoring σ F (Option (List Token × F))
  | tokens, score, [] => return some (tokens, score)
  | tokens, score, token :: rest => do
    let probabilities ← nextLogProbabilities functions model tokens
    match probabilityOf probabilities token with
    | none => return none
    | some probability => scoreTokens (tokens ++ [token]) (score + probability) rest

def appendAndScore (emittedTokens : List Token) (appendText : Text) :
    Scoring σ F (Option (List Token × F)) := do
  let appendTokens ← tokenize model appendText
  scoreTokens functions model emittedTokens 0 appendTokens

/-! ### Likely characters -/

def askPiece (token : Token) : Scoring σ F (Except ZenzInferenceError Bytes) := fun scorer =>
  let (answer, state) := model.tokenToPiece token scorer.model
  .ok (answer, { scorer with model := state })

/-- The loop of `top_characters`; tokens that are no single grapheme are passed over. -/
def collectCharacters (count : Nat) : List Grapheme → List Nat → Scoring σ F (List Grapheme)
  | result, [] => return result
  | result, tokenId :: rest => do
    match tokenOfIndex tokenId with
    | none => collectCharacters count result rest
    | some token =>
      match ← askPiece model token with
      | .error _ => collectCharacters count result rest
      | .ok bytes =>
        match (fromUtf8 bytes).map (graphemes unicode) with
        | some [grapheme] =>
          if grapheme ∈ result then collectCharacters count result rest
          else if result.length + 1 = count then return result ++ [grapheme]
          else collectCharacters count (result ++ [grapheme]) rest
        | _ => collectCharacters count result rest

def topCharacters (emittedTokens : List Token) (count : Nat) : Scoring σ F (List Grapheme) := do
  if count = 0 then return []
  else
    let probabilities ← nextLogProbabilities functions model emittedTokens
    let tokenIds := probabilities.zipIdx.mergeSort fun left right => decide (right.1 ≤ left.1)
    collectCharacters unicode model count [] ((tokenIds.take (count * 4)).map Prod.snd)

/-! ### The proxy of what is pending -/

/-- The loop over the displays: tokens that begin one of them, where one token does. -/
def collectFirstTokens : List Token → List Text → Scoring σ F (List Token)
  | tokens, [] => return tokens
  | tokens, display :: rest => do
    match (graphemes unicode display).head? with
    | none => collectFirstTokens tokens rest
    | some first =>
      match ← tokenize model first with
      | [token] => collectFirstTokens (if token ∈ tokens then tokens else tokens ++ [token]) rest
      | _ => collectFirstTokens tokens rest

def pendingFirstTokens (pending : Text) (table : InputTable) : Scoring σ F (List Token) := do
  match (← get).pendingTokenCache pending with
  | some tokens => return tokens
  | none =>
    let tokens ← collectFirstTokens unicode model [] (possibleNextDisplays unicode pending table)
    modify fun scorer =>
      { scorer with pendingTokenCache := scorer.pendingTokenCache.insert pending tokens.mergeSort }
    return tokens.mergeSort

def firstTokensScore (firstTokens : List Token) (probabilities : List F) : Option F := do
  let values := firstTokens.filterMap (probabilityOf probabilities)
  let maximum ← values.max?
  if !functions.isFinite maximum then none
  else
    let sum := (values.map fun value => functions.exp (value - maximum)).sum
    if sum ≤ 0 then none else some (maximum + functions.ln sum)

def pendingProxyLogProbability (pending : Text) (emittedTokens : List Token)
    (table : Option InputTable) : Scoring σ F (Option F) := do
  if pending = [] then return some 0
  else
    match table with
    | none => return none
    | some table =>
      match (← get).pendingScoreCache (emittedTokens, pending) with
      | some score => return some score
      | none =>
        let firstTokens ← pendingFirstTokens unicode model pending table
        if firstTokens = [] then return none
        else
          let probabilities ← nextLogProbabilities functions model emittedTokens
          match firstTokensScore functions firstTokens probabilities with
          | none => return none
          | some score =>
            modify fun scorer => { scorer with
              pendingScoreCache := scorer.pendingScoreCache.insert (emittedTokens, pending) score }
            return some score

end

end BeanKey.LmTypo
