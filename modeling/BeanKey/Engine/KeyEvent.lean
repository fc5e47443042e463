import BeanKey.Engine.Protocol

/-! What a key event types: punctuation, full-width symbols and the surrounding text. -/
namespace BeanKey.Engine
open Session Protocol

inductive PunctuationStyle where
  | kutenAndToten | kutenAndComma | periodAndToten | periodAndComma
  deriving DecidableEq

structure InputBehavior where
  typeBackslash : Bool := false
  typeHalfSpace : Bool := false
  optionDirectFullWidthInput : Bool := false
  punctuationStyle : PunctuationStyle := .kutenAndToten

/-- One of two marks of each kind, the other one where the key is inverted. -/
def PunctuationStyle.comma (style : PunctuationStyle) (inverted : Bool) : Text :=
  let isComma := style = .kutenAndComma ∨ style = .periodAndComma
  if isComma ≠ (inverted = true) then ['，'] else ['、']

def PunctuationStyle.period (style : PunctuationStyle) (inverted : Bool) : Text :=
  let isPeriod := style = .periodAndToten ∨ style = .periodAndComma
  if isPeriod ≠ (inverted = true) then ['．'] else ['。']

def isControl (character : Char) : Bool :=
  character.toNat < 0x20 || (0x7f ≤ character.toNat && character.toNat ≤ 0x9f)

def isWhitespace (character : Char) : Bool :=
  let scalar := character.toNat
  (0x9 ≤ scalar && scalar ≤ 0xd) || (0x2000 ≤ scalar && scalar ≤ 0x200a) ||
    scalar ∈ [0x20, 0x85, 0xa0, 0x1680, 0x2028, 0x2029, 0x202f, 0x205f, 0x3000]

def japaneseSymbols : List (Char × Char) :=
  "!\"#$%&'()=~|`\x7b+*\x7d<>?_-^\\¥@[;:],./".toList.zip
    "！”＃＄％＆’（）＝〜｜｀『＋＊』＜＞？＿ー＾＼￥＠「；：」、。・".toList

def japaneseSymbolIntention : Text → Option Text
  | [character] => (japaneseSymbols.lookup character).map fun symbol => [symbol]
  | _ => none

def validEventText (event : KeyEvent) : Bool :=
  event.text ≠ [] && !event.text.any isControl && !event.input.any isControl &&
    !event.intention.any isControl

def optionDirectInputText (event : KeyEvent) (typeBackslash : Bool) : Option Text :=
  let input :=
    if event.intention ≠ [] then event.intention
    else if event.input ≠ [] then event.input
    else event.text
  if input = [] || input.any isControl then none
  else
    let normalized :=
      if input = ['¥'] ∨ input = ['\\'] then if typeBackslash then ['\\'] else ['¥'] else input
    some (toFullWidth normalized)

def KeyEvent.typed (event : KeyEvent) : Text :=
  if event.input = [] then event.text else event.input

def normalizedText (event : KeyEvent) (behavior : InputBehavior) : Option Text :=
  let input := KeyEvent.typed event
  let logical := if event.option && event.intention ≠ [] then event.intention else input
  if logical = ['¥'] ∨ logical = ['\\'] then
    if event.shift then some ['｜']
    else if behavior.typeBackslash ≠ event.option then some ['＼']
    else some ['￥']
  else if logical = [','] ∧ !event.shift then
    some (behavior.punctuationStyle.comma event.option)
  else if logical = ['.'] ∧ !event.shift then
    some (behavior.punctuationStyle.period event.option)
  else if logical = ['/'] ∧ event.option then some (if event.shift then ['…'] else ['／'])
  else if logical = ['['] ∧ event.option then some (if event.shift then ['｛'] else ['［'])
  else if logical = [']'] ∧ event.option then some (if event.shift then ['｝'] else ['］'])
  else japaneseSymbolIntention input

def normalizeInputEvent (event : KeyEvent) (behavior : InputBehavior) : KeyEvent :=
  if event.action ≠ .input then event
  else
    let input := KeyEvent.typed event
    match normalizedText event behavior with
    | some normalized => { event with text := normalized, intention := normalized }
    | none =>
      if event.option && input ≠ [] && input.all fun character => !isControl character then
        { event with text := input, intention := input }
      else event

@[simp] theorem normalizeInputEvent_action (event : KeyEvent) (behavior : InputBehavior) :
    (normalizeInputEvent event behavior).action = event.action := by
  unfold normalizeInputEvent
  split
  · rfl
  · dsimp only
    split
    · rfl
    · split <;> rfl

theorem normalizeInputEvent_of_ne {event : KeyEvent} (behavior : InputBehavior)
    (h : event.action ≠ .input) : normalizeInputEvent event behavior = event := if_pos h

def selectionNumber : Text → Option Nat
  | [character] =>
    if '0' ≤ character ∧ character ≤ '9' then some (character.toNat - '0'.toNat) else none
  | _ => none

/-! ### The surrounding text -/

structure SurroundingContext where
  left : Option Text := none
  right : Option Text := none

/-- At most the last 30 characters of the line before the selection, and the first 30
after it. -/
def surroundingContext : Option SurroundingText → Except String SurroundingContext
  | none => .ok {}
  | some surrounding =>
    if !surrounding.available then .ok {}
    else if surrounding.text.length < surrounding.cursor ∨
        surrounding.text.length < surrounding.anchor then
      .error ("surrounding text cursor " ++ toString surrounding.cursor ++ " and anchor " ++
        toString surrounding.anchor ++ " exceed " ++ toString surrounding.text.length ++
        " characters")
    else
      let start := min surrounding.cursor surrounding.anchor
      let stop := max surrounding.cursor surrounding.anchor
      let leftLine :=
        ((surrounding.text.take start).reverse.takeWhile (· ≠ '\n')).reverse.dropWhile
          isWhitespace
      let rightLine :=
        (((surrounding.text.drop stop).takeWhile (· ≠ '\n')).reverse.dropWhile
          isWhitespace).reverse
      .ok { left := some (leftLine.drop (leftLine.length - 30)), right := some (rightLine.take 30) }

/-! ### A character by its number -/

def isAsciiHexdigit (character : Char) : Bool :=
  ('0' ≤ character && character ≤ '9') || ('a' ≤ character && character ≤ 'f') ||
    ('A' ≤ character && character ≤ 'F')

def toAsciiLowercase (character : Char) : Char :=
  if 'A' ≤ character ∧ character ≤ 'Z' then Char.ofNat (character.toNat + 32) else character

def hexValue (character : Char) : Nat :=
  if character ≤ '9' then character.toNat - '0'.toNat else character.toNat - 'a'.toNat + 10

/-- `u32::from_str_radix` on lower-case digits, and the character of that number. -/
def unicodeCharacter (digits : Text) : Option Char :=
  if digits = [] then none
  else
    let value := digits.foldl (fun value digit => value * 16 + hexValue digit) 0
    if value.isValidChar then some (Char.ofNat value) else none

end BeanKey.Engine
