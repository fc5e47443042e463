import BeanKey.Input.Table

/-! Custom input tables: the lines of a text as rules, the check of such a text, and the text of
a table. -/
namespace BeanKey.Input

/-! ### Lines -/

def isWhitespace (character : Char) : Bool :=
  let code := character.toNat
  (9 ≤ code && code ≤ 13) || code = 0x20 || code = 0x85 || code = 0xa0 || code = 0x1680 ||
    (0x2000 ≤ code && code ≤ 0x200a) || code = 0x2028 || code = 0x2029 || code = 0x202f ||
      code = 0x205f || code = 0x3000

def isBlank (line : Text) : Bool := line.all isWhitespace

def stripReturn (line : Text) : Text :=
  if line.getLast? = some '\r' then line.dropLast else line

/-- A carriage return before a line feed is part of the line ending; nothing after the last line
feed is no line. -/
def endedLines : List Text → List Text
  | [] => []
  | [last] => if last = [] then [] else [last]
  | line :: rest => stripReturn line :: endedLines rest

def lines (content : Text) : List Text := endedLines (content.splitOn '\n')

/-! ### Elements -/

def openBrace : Char := '\x7b'
def closeBrace : Char := '\x7d'

def compositionSeparatorToken : Text := "composition-separator".toList
def anyCharacterToken : Text := "any character".toList
def leftBracketToken : Text := "lbracket".toList
def rightBracketToken : Text := "rbracket".toList
def shiftZeroToken : Text := "shift 0".toList
def shiftUnderscoreToken : Text := "shift _".toList

def shiftedKey (value : Grapheme) : InputPiece := .key (some value) value {.shift}

def keyToken (token : Text) : Option KeyElement :=
  if token = compositionSeparatorToken then some (.piece .compositionSeparator)
  else if token = anyCharacterToken then some .any
  else if token = leftBracketToken then some (.piece (.character [openBrace]))
  else if token = rightBracketToken then some (.piece (.character [closeBrace]))
  else if token = shiftZeroToken then some (.piece (shiftedKey ['0']))
  else if token = shiftUnderscoreToken then some (.piece (shiftedKey ['_']))
  else none

def valueToken (token : Text) : Option ValueElement :=
  if token = anyCharacterToken then some .any
  else if token = leftBracketToken then some (.character [openBrace])
  else if token = rightBracketToken then some (.character [closeBrace])
  else none

def tokenAt {T : Type} (parseToken : Text → Option T) : Text → Option (T × Text)
  | [] => none
  | character :: rest =>
    if character = openBrace ∧ closeBrace ∈ rest then
      (parseToken (rest.takeWhile (· ≠ closeBrace))).map fun element =>
        (element, (rest.dropWhile (· ≠ closeBrace)).tail)
    else none

section
variable (unicode : UnicodeTable)

def parseElementsFrom {T : Type} (parseToken : Text → Option T) (parseGrapheme : Grapheme → T) :
    Nat → Text → List T
  | 0, _ => []
  | fuel + 1, remaining =>
    match tokenAt parseToken remaining with
    | some (element, rest) =>
      element :: parseElementsFrom parseToken parseGrapheme fuel rest
    | none =>
      match graphemes unicode remaining with
      | [] => []
      | grapheme :: _ =>
        parseGrapheme grapheme ::
          parseElementsFrom parseToken parseGrapheme fuel (remaining.drop grapheme.length)

def parseElements {T : Type} (parseToken : Text → Option T) (parseGrapheme : Grapheme → T)
    (value : Text) : List T :=
  parseElementsFrom unicode parseToken parseGrapheme value.length value

def parseKey (value : Text) : List KeyElement :=
  parseElements unicode keyToken (fun grapheme => .piece (.character grapheme)) value

def parseValue (value : Text) : List ValueElement :=
  parseElements unicode valueToken .character value

/-! ### Loading -/

/-- The rule of a line: its first two columns that are not empty. -/
def lineRule (line : Text) : Option Mapping :=
  if isBlank line then none
  else
    match (line.splitOn '\t').filter (· ≠ []) with
    | key :: value :: _ => some ⟨parseKey unicode key, parseValue unicode value⟩
    | _ => none

def InputTable.fromCustomTsv (content : Text) : InputTable :=
  .new ((lines content).filterMap (lineRule unicode))

end

/-! ### Exporting -/

structure InputTableExportError where
  element : KeyElement
  deriving DecidableEq

def bracketed (token : Text) : Text := openBrace :: token ++ [closeBrace]

def encodeCharacter (value : Grapheme) : Text :=
  if value = [openBrace] then bracketed leftBracketToken
  else if value = [closeBrace] then bracketed rightBracketToken
  else value

def encodeKey (element : KeyElement) : Except InputTableExportError Text :=
  match element with
  | .piece (.character value) => .ok (encodeCharacter value)
  | .piece .compositionSeparator => .ok (bracketed compositionSeparatorToken)
  | .piece (.key intention input modifiers) =>
    if intention = some ['0'] ∧ input = ['0'] ∧ modifiers = {.shift} then
      .ok (bracketed shiftZeroToken)
    else if intention = some ['_'] ∧ input = ['_'] ∧ modifiers = {.shift} then
      .ok (bracketed shiftUnderscoreToken)
    else .error ⟨element⟩
  | .any => .ok (bracketed anyCharacterToken)

def encodeValue : ValueElement → Text
  | .character value => encodeCharacter value
  | .any => bracketed anyCharacterToken

def encodeRule (rule : Mapping) : Except InputTableExportError Text :=
  (rule.key.mapM encodeKey).map fun key => key.flatten ++ '\t' :: rule.value.flatMap encodeValue

def InputTable.toCustomTsv (table : InputTable) : Except InputTableExportError Text :=
  (table.mappings.mapM encodeRule).map fun lines => ['\n'].intercalate lines

/-! ### Checking -/

inductive FormatSide where
  | key
  | value
  deriving DecidableEq

inductive FormatErrorKind where
  | invalidTabCount (found : Nat)
  | unknownBraceToken (token : Text) (side : FormatSide)
  | unclosedBrace
  | shiftTokenNotAtTail (token : Text)
  | duplicateRule (firstDefinedAt : Nat)
  deriving DecidableEq

structure FormatError where
  line : Nat
  kind : FormatErrorKind
  deriving DecidableEq

inductive FormatReport where
  | fullyValid
  | invalidLines (errors : List FormatError)
  deriving DecidableEq

def knownTokens : FormatSide → List Text
  | .key => [compositionSeparatorToken, anyCharacterToken, leftBracketToken, rightBracketToken,
      shiftZeroToken, shiftUnderscoreToken]
  | .value => [anyCharacterToken, leftBracketToken, rightBracketToken]

/-- The loop of `scan_tokens`: the errors, and the first shift token before the end of a key. -/
def scanTokensFrom (side : FormatSide) (line : Nat) :
    Nat → Text → List FormatError → Option Text → List FormatError × Option Text
  | 0, _, errors, notAtTail => (errors, notAtTail)
  | fuel + 1, remaining, errors, notAtTail =>
    match remaining.dropWhile (· ≠ openBrace) with
    | [] => (errors, notAtTail)
    | _ :: rest =>
      if closeBrace ∉ rest then (errors ++ [⟨line, .unclosedBrace⟩], notAtTail)
      else
        let token := rest.takeWhile (· ≠ closeBrace)
        let after := (rest.dropWhile (· ≠ closeBrace)).tail
        if openBrace ∈ token then
          scanTokensFrom side line fuel after (errors ++ [⟨line, .unclosedBrace⟩]) notAtTail
        else
          scanTokensFrom side line fuel after
            (if token ∈ knownTokens side then errors
              else errors ++ [⟨line, .unknownBraceToken token side⟩])
            (if side = .key ∧ (token = shiftZeroToken ∨ token = shiftUnderscoreToken) ∧
                after ≠ [] ∧ notAtTail = none then some token
              else notAtTail)

def scanTokens (value : Text) (side : FormatSide) (line : Nat) (errors : List FormatError) :
    List FormatError × Option Text :=
  scanTokensFrom side line value.length value errors none

/-- The errors so far, and the line where each key was first defined. -/
structure CheckState where
  errors : List FormatError := []
  firstSeen : List (List KeyElement × Nat) := []

def splitOnce (line : Text) : Option (Text × Text) :=
  if '\t' ∈ line then some (line.takeWhile (· ≠ '\t'), (line.dropWhile (· ≠ '\t')).tail) else none

section
variable (unicode : UnicodeTable)

def checkRule (state : CheckState) (line : Nat) (key value : Text) : CheckState :=
  let (errors, notAtTail) := scanTokens key .key line state.errors
  let (errors, _) := scanTokens value .value line errors
  let errors := match notAtTail with
    | some token => errors ++ [⟨line, .shiftTokenNotAtTail token⟩]
    | none => errors
  let parsed := parseKey unicode key
  match state.firstSeen.find? fun (other, _) => other = parsed with
  | some (_, firstDefinedAt) =>
    { state with errors := errors ++ [⟨line, .duplicateRule firstDefinedAt⟩] }
  | none => { errors, firstSeen := state.firstSeen ++ [(parsed, line)] }

def checkLine (state : CheckState) (line : Nat) (content : Text) : CheckState :=
  if isBlank content then state
  else
    let tabCount := content.count '\t'
    let counted := if tabCount ≠ 1 then
        { state with errors := state.errors ++ [⟨line, .invalidTabCount tabCount⟩] }
      else state
    match splitOnce content with
    | none => counted
    | some (key, value) => checkRule unicode counted line key value

def checkLines (content : Text) : CheckState :=
  (content.splitOn '\n').zipIdx.foldl
    (fun state (line, index) => checkLine unicode state index line) {}

def checkCustomTsv (content : Text) : FormatReport :=
  let errors := (checkLines unicode content).errors
  if errors = [] then .fullyValid else .invalidLines errors

end

end BeanKey.Input
