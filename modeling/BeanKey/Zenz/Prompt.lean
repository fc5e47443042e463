import BeanKey.Zenz.Constraint

/-! The prompts a candidate is evaluated under. -/
namespace BeanKey.Zenz

def inputTag : Char := '\uEE00'
def outputTag : Char := '\uEE01'
def contextTag : Char := '\uEE02'
def profileTag : Char := '\uEE03'
def topicTag : Char := '\uEE04'
def styleTag : Char := '\uEE05'
def preferenceTag : Char := '\uEE06'
def rightContextTag : Char := '\uEE07'
def alignmentSeparator : Char := '\uEE08'

structure ZenzV2Config where
  profile : Option Text := none
  leftContext : Option Text := none
  maxLeftContextLength : Option Nat := none
  deriving DecidableEq

structure ZenzV3Config where
  profile : Option Text := none
  topic : Option Text := none
  style : Option Text := none
  preference : Option Text := none
  leftContext : Option Text := none
  rightContext : Option Text := none
  maxLeftContextLength : Option Nat := none
  maxRightContextLength : Option Nat := none
  enableAlignmentSeparator : Bool := false
  deriving DecidableEq

inductive ZenzVersionConfig where
  | v2 (config : ZenzV2Config)
  | v3 (config : ZenzV3Config)
  deriving DecidableEq

def normalizeForModel (value : Text) : Text :=
  (value.map fun character => if character = ' ' then '\u3000' else character).filter (· ≠ '\n')

section
variable (unicode : UnicodeTable)

def graphemePrefix (value : Text) (count : Nat) : Text :=
  ((graphemes unicode value).take count).flatten

def graphemeSuffix (value : Text) (count : Nat) : Text :=
  ((graphemes unicode value).drop ((graphemes unicode value).length - count)).flatten

def v3Conditions (config : ZenzV3Config) : List Text :=
  [(profileTag, config.profile), (topicTag, config.topic), (styleTag, config.style),
    (preferenceTag, config.preference)].filterMap fun (tag, value) =>
      (value.filter (· ≠ [])).map fun value => tag :: graphemeSuffix unicode value 25

def shouldInsertAlignmentSeparator (input : Text) (cursorPosition : Option Nat) : Bool :=
  cursorPosition.any fun position => decide (position < (graphemes unicode input).length)

def alignedInput (input : Text) (cursorPosition : Option Nat) (enabled : Bool) : Text :=
  match cursorPosition with
  | some position =>
    if enabled && shouldInsertAlignmentSeparator unicode input cursorPosition then
      ((graphemes unicode input).take position).flatten ++ alignmentSeparator ::
        ((graphemes unicode input).drop position).flatten
    else input
  | none => input

def v2Prompt (input : Text) (conditions : List Text) (leftContext : Text) : Text :=
  if conditions ≠ [] then
    inputTag :: input ++ contextTag :: ("・".toList.intercalate conditions) ++ "・発言:".toList ++
      leftContext ++ [outputTag]
  else if leftContext ≠ [] then inputTag :: input ++ contextTag :: leftContext ++ [outputTag]
  else inputTag :: input ++ [outputTag]

def candidateEvaluation (input : Text) (inputCursorPosition : Option Nat)
    (userDictionaryPrompt : Text) :
    ZenzVersionConfig → Text
  | .v2 config =>
    let dictionary := if userDictionaryPrompt ≠ [] then
      ["辞書:".toList ++ userDictionaryPrompt] else []
    let profile := ((config.profile.filter (· ≠ [])).map fun profile =>
      "プロフィール:".toList ++ graphemeSuffix unicode profile 25).toList
    v2Prompt input (dictionary ++ profile) (graphemeSuffix unicode (config.leftContext.getD [])
      (config.maxLeftContextLength.getD 40))
  | .v3 config =>
    let dictionary := if userDictionaryPrompt ≠ [] then "辞書:".toList ++ userDictionaryPrompt else []
    let left := graphemeSuffix unicode (config.leftContext.getD [])
      (config.maxLeftContextLength.getD 40)
    let right := graphemePrefix unicode (config.rightContext.getD [])
      (config.maxRightContextLength.getD 40)
    dictionary ++ (v3Conditions unicode config).flatten ++
      (if left ≠ [] then contextTag :: left else []) ++
      (if right ≠ [] then rightContextTag :: right else []) ++
      inputTag :: alignedInput unicode input inputCursorPosition config.enableAlignmentSeparator ++
      [outputTag]

def candidateTextForEvaluation (candidateText input : Text) (inputCursorPosition : Option Nat) :
    ZenzVersionConfig → Text
  | .v2 _ => candidateText
  | .v3 config =>
    if config.enableAlignmentSeparator &&
        shouldInsertAlignmentSeparator unicode input inputCursorPosition then
      candidateText ++ [alignmentSeparator]
    else candidateText

end

def appendingLeftContext (version : ZenzVersionConfig) (fixed : Text) : ZenzVersionConfig :=
  match version with
  | .v2 config => .v2 { config with leftContext := some (config.leftContext.getD [] ++ fixed) }
  | .v3 config => .v3 { config with leftContext := some (config.leftContext.getD [] ++ fixed) }

end BeanKey.Zenz
