import BeanKey.Zenz.Prompt
import BeanKey.Session.Candidate
import BeanKey.Dictionary.Binary

/-! The language model, and the review of a candidate's tokens by it. Scores are in the machine's
single-precision arithmetic, which is a parameter, as is the model. -/
namespace BeanKey.Zenz
open BeanKey.Lattice Packing

abbrev Token := Int

inductive ZenzInferenceError where
  | message (message : String)
  | contextCapacity (tokens capacity : Nat)
  deriving DecidableEq

structure Arithmetic (F : Type) where
  zero : F
  epsilon : F
  ofNat : Nat → F
  add : F → F → F
  sub : F → F → F
  mul : F → F → F
  exp : F → F
  ln : F → F
  lt : F → F → Bool
  le : F → F → Bool
  isZero : F → Bool
  totalCmp : F → F → Ordering

/-- A model that answers every call from its arguments alone. -/
structure ZenzLanguageModel (F : Type) where
  vocabularySize : Nat
  eosToken : Token
  tokenize : Text → Bool → Except ZenzInferenceError (List Token)
  tokenToPiece : Token → Except ZenzInferenceError Bytes
  logitsForSuffix : List Token → Nat → Except ZenzInferenceError (List F)

structure ZenzPersonalization (F : Type) where
  alpha : F
  base : List Token → Nat → Option (List F)
  personal : List Token → Nat → Option (List F)

structure AlternativeConstraint (F : Type) where
  probabilityRatio : F
  bytes : Bytes

inductive CandidateEvaluation (F : Type) where
  | pass (score : F) (alternatives : List (AlternativeConstraint F))
  | fixRequired (bytes : Bytes)
  | wholeResult (result : Text)

structure ZenzEvaluationRequest (F : Type) where
  input : Text
  inputCursorPosition : Option Nat
  candidate : Session.Candidate
  requestRichCandidates : Bool
  prefixConstraint : PrefixConstraint
  personalization : Option (ZenzPersonalization F)
  version : ZenzVersionConfig

def fromUtf8 (bytes : Bytes) : Option Text :=
  let text := Dictionary.fromUtf8Lossy bytes
  if utf8 text = bytes then some text else none

/-- How `Utf8Error` shows the first sequence that is none, from `index` on. -/
def utf8ErrorFrom (index : Nat) : Nat → Bytes → String
  | 0, _ | _ + 1, [] => ""
  | fuel + 1, lead :: rest =>
    let (character, after) := Dictionary.decodeFirst lead rest
    let length := rest.length + 1 - after.length
    if String.utf8EncodeChar character = (lead :: rest).take length then
      utf8ErrorFrom (index + length) fuel after
    else if after = [] ∧ (Dictionary.continuationRule lead.toNat).isSome then
      "incomplete utf-8 byte sequence from index " ++ toString index
    else
      "invalid utf-8 sequence of " ++ toString length ++ " bytes from index " ++ toString index

def utf8Error (bytes : Bytes) : String := utf8ErrorFrom 0 bytes.length bytes

def tokenOfIndex (index : Nat) : Option Token := if index < 2 ^ 31 then some index else none

section
variable {F : Type} (unicode : UnicodeTable) (arithmetic : Arithmetic F)
  (model : ZenzLanguageModel F)

def tokenizeForModel (value : Text) (addSpecial : Bool) : Except ZenzInferenceError (List Token) :=
  model.tokenize (normalizeForModel value) addSpecial

def tokenPieces : List Token → Except ZenzInferenceError Bytes
  | [] => .ok []
  | token :: rest => do
    let piece ← model.tokenToPiece token
    let pieces ← tokenPieces rest
    return piece ++ pieces

/-! ### Priorities of learned words -/

def learningPriority (ruby : Text) : F :=
  let count := (graphemes unicode ruby).length
  if 1 ≤ count ∧ count ≤ 4 then arithmetic.ofNat (count + 2)
  else if 5 ≤ count ∧ count ≤ 15 then arithmetic.ofNat (count * 2)
  else arithmetic.ofNat 30

def entryPriorities : List DictionaryEntry → Except ZenzInferenceError (List F)
  | [] => .ok []
  | entry :: rest => do
    let tokens ← tokenizeForModel model entry.word false
    let priorities ← entryPriorities rest
    return List.replicate tokens.length
      (if entry.metadata.learned then arithmetic.ln (learningPriority unicode arithmetic entry.ruby)
        else arithmetic.zero) ++ priorities

def learnedTokenPriorities (candidate : Session.Candidate) (candidateTokens : List Token) :
    Except ZenzInferenceError (List F) :=
  if candidate.entries.any fun entry => entry.metadata.learned then do
    let priorities ← entryPriorities unicode arithmetic model candidate.entries
    return (priorities ++ List.replicate (candidateTokens.length - priorities.length)
      arithmetic.zero).take candidateTokens.length
  else .ok []

/-! ### Logits -/

def personalizedLogits (row : List F) (candidatePrefix : List Token)
    (personalization : Option (ZenzPersonalization F)) : Option (List F) := do
  let mode ← personalization.filter fun mode => arithmetic.lt arithmetic.zero mode.alpha
  if candidatePrefix.isEmpty then none
  else
    let base ← mode.base candidatePrefix row.length
    let personal ← mode.personal candidatePrefix row.length
    if base.length ≠ row.length ∨ personal.length ≠ row.length then none
    else
      some ((row.zip (base.zip personal)).map fun (logit, base, personal) =>
        arithmetic.add logit (arithmetic.mul mode.alpha
          (arithmetic.sub (arithmetic.ln (arithmetic.add personal arithmetic.epsilon))
            (arithmetic.ln (arithmetic.add base arithmetic.epsilon)))))

def argmaxFrom (maximum : Nat) (value : F) (index : Nat) : List F → Nat
  | [] => maximum
  | logit :: rest =>
    if arithmetic.lt value logit then argmaxFrom index logit (index + 1) rest
    else argmaxFrom maximum value (index + 1) rest

def strictArgmax : List F → Nat
  | [] => 0
  | logit :: rest => argmaxFrom arithmetic 0 logit 1 rest

/-! ### One token -/

inductive TokenVerdict where
  | best
  | prioritized
  | endOfText
  | rejected
  deriving DecidableEq

/-- What the row says of a token: it is the maximum, or its word was learned often enough. -/
def tokenVerdict (evaluated : List F) (priority : F) (token : Nat) : TokenVerdict :=
  let maximumToken := strictArgmax arithmetic evaluated
  if maximumToken = token then .best
  else if tokenOfIndex maximumToken = some model.eosToken then .endOfText
  else if arithmetic.isZero priority ||
      arithmetic.le (arithmetic.add (evaluated.getD token arithmetic.zero) priority)
        (evaluated.getD maximumToken arithmetic.zero) then .rejected
  else .prioritized

def vocabularyExceeds : ZenzInferenceError := .message "vocabulary exceeds i32"

def pieceOfIndex (index : Nat) : Except ZenzInferenceError Bytes :=
  match tokenOfIndex index with
  | none => .error vocabularyExceeds
  | some token => model.tokenToPiece token

/-- The other ones of the three best tokens, as what they would make of the prefix. -/
def topAlternatives (evaluated : List F) (candidatePrefix : Bytes) :
    Except ZenzInferenceError (List (AlternativeConstraint F)) :=
  let maximumToken := strictArgmax arithmetic evaluated
  let maximumLogit := evaluated.getD maximumToken arithmetic.zero
  let topTokens := evaluated.zipIdx.mergeSort fun first second =>
    match arithmetic.totalCmp second.1 first.1 with
    | .lt => true
    | .eq => decide (first.2 ≤ second.2)
    | .gt => false
  ((topTokens.take 3).filter fun (_, token) => token ≠ maximumToken).mapM fun (logit, token) => do
    let piece ← pieceOfIndex model token
    return ⟨arithmetic.exp (arithmetic.sub logit maximumLogit), candidatePrefix ++ piece⟩

/-! ### All tokens -/

structure ReviewState (F : Type) where
  candidatePrefix : Bytes
  score : F
  alternatives : List (AlternativeConstraint F)

def bestAlternatives (alternatives : List (AlternativeConstraint F)) :
    List (AlternativeConstraint F) :=
  (alternatives.mergeSort fun first second =>
    (arithmetic.totalCmp second.probabilityRatio first.probabilityRatio).isLE).take 5

def evaluatedRow (personalization : Option (ZenzPersonalization F)) (logits : List F)
    (candidateTokens : List Token) (addressed index : Nat) : List F :=
  let row := (logits.drop ((index - addressed) * model.vocabularySize)).take model.vocabularySize
  (personalizedLogits arithmetic row (candidateTokens.take index) personalization).getD row

def reviewTokens (requestRichCandidates : Bool) (personalization : Option (ZenzPersonalization F))
    (logits priorities : List F) (candidateTokens : List Token) (addressed : Nat) :
    Nat → List Token → ReviewState F → Except ZenzInferenceError (CandidateEvaluation F)
  | _, [], state => .ok (.pass state.score (bestAlternatives arithmetic state.alternatives))
  | index, token :: rest, state => do
    let evaluated := evaluatedRow arithmetic model personalization logits candidateTokens addressed
      index
    let maximumToken := strictArgmax arithmetic evaluated
    if token < 0 ∨ model.vocabularySize ≤ token.toNat then
      throw (.message ("invalid candidate token " ++ toString token))
    let verdict := tokenVerdict arithmetic model evaluated (priorities.getD index arithmetic.zero)
      token.toNat
    match verdict with
    | .endOfText => return .wholeResult ((fromUtf8 state.candidatePrefix).getD [])
    | .rejected =>
      let piece ← pieceOfIndex model maximumToken
      return .fixRequired (state.candidatePrefix ++ piece)
    | .best | .prioritized =>
      let alternatives ←
        if requestRichCandidates && verdict = .best then
          topAlternatives arithmetic model evaluated state.candidatePrefix
        else .ok []
      let piece ← model.tokenToPiece token
      reviewTokens requestRichCandidates personalization logits priorities candidateTokens addressed
        (index + 1) rest
        { candidatePrefix := state.candidatePrefix ++ piece
          score := arithmetic.add state.score (evaluated.getD maximumToken arithmetic.zero)
          alternatives := state.alternatives ++ alternatives }

def logitsMismatch (logits tokens vocabularySize : Nat) : ZenzInferenceError :=
  .message ("model returned " ++ toString logits ++ " logits for " ++ toString tokens ++
    " candidate tokens and a vocabulary of " ++ toString vocabularySize)

def evaluateCandidateTokens (request : ZenzEvaluationRequest F) (promptTokens : List Token)
    (candidateText : Text) (addressedTokenCount : Nat) :
    Except ZenzInferenceError (CandidateEvaluation F) := do
  let candidateTokens ← tokenizeForModel model candidateText false
  let priorities ← learnedTokenPriorities unicode arithmetic model request.candidate candidateTokens
  let addressed := min addressedTokenCount candidateTokens.length
  let candidatePrefix ← tokenPieces model (candidateTokens.take addressed)
  if candidateTokens.isEmpty then return .pass arithmetic.zero []
  if promptTokens.isEmpty then
    throw (.message "candidate evaluation prompt produced no tokens")
  if addressed = candidateTokens.length then return .pass arithmetic.zero []
  let logits ← model.logitsForSuffix (promptTokens ++ candidateTokens.dropLast)
    (promptTokens.length - 1 + addressed)
  if 2 ^ 64 ≤ (candidateTokens.length - addressed) * model.vocabularySize then
    throw (.message "candidate logits size overflow")
  if logits.length ≠ (candidateTokens.length - addressed) * model.vocabularySize ∨
      model.vocabularySize = 0 then
    throw (logitsMismatch logits.length candidateTokens.length model.vocabularySize)
  reviewTokens arithmetic model request.requestRichCandidates request.personalization logits
    priorities candidateTokens addressed addressed (candidateTokens.drop addressed)
    ⟨candidatePrefix, arithmetic.zero, []⟩

end

end BeanKey.Zenz
