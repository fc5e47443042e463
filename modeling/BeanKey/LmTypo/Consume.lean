import BeanKey.Session.Candidate
import Mathlib.Algebra.Order.Field.Rat

/-! What the typo search reads: the typed keys, the keys next to them, and what an input table
makes of a corrected key. -/
namespace BeanKey.LmTypo
open BeanKey.Input

/-! ### Neighbouring keys -/

inductive Topology where
  | macQwerty
  | iosQwerty
  | iosFlickTenkey
  deriving DecidableEq

def macQwerty : List (Char × ℚ × ℚ) :=
  [('1', -1, 0), ('2', 0.25, 0), ('3', 1.25, 0), ('4', 2.25, 0), ('5', 3.25, 0), ('6', 4.25, 0),
   ('7', 5.25, 0), ('8', 6.25, 0), ('9', 7.25, 0), ('0', 8.25, 0), ('-', 9.25, 0), ('^', 10.25, 0),
   ('q', 0, 1), ('w', 1, 1), ('e', 2, 1), ('r', 3, 1), ('t', 4, 1), ('y', 5, 1), ('u', 6, 1),
   ('i', 7, 1), ('o', 8, 1), ('p', 9, 1), ('@', 10, 1), ('[', 11, 1), ('a', 0.25, 2),
   ('s', 1.25, 2), ('d', 2.25, 2), ('f', 3.25, 2), ('g', 4.25, 2), ('h', 5.25, 2), ('j', 6.25, 2),
   ('k', 7.25, 2), ('l', 8.25, 2), (';', 9.25, 2), (']', 10.25, 2), ('z', 0.8, 3), ('x', 1.8, 3),
   ('c', 2.8, 3), ('v', 3.8, 3), ('b', 4.8, 3), ('n', 5.8, 3), ('m', 6.8, 3), (',', 7.8, 3),
   ('.', 8.8, 3), ('/', 9.8, 3), ('_', 10.8, 3)]

def iosQwerty : List (Char × ℚ × ℚ) :=
  [('q', 0, 1), ('w', 1, 1), ('e', 2, 1), ('r', 3, 1), ('t', 4, 1), ('y', 5, 1), ('u', 6, 1),
   ('i', 7, 1), ('o', 8, 1), ('p', 9, 1), ('a', 0.5, 2.5), ('s', 1.5, 2.5), ('d', 2.5, 2.5),
   ('f', 3.5, 2.5), ('g', 4.5, 2.5), ('h', 5.5, 2.5), ('j', 6.5, 2.5), ('k', 7.5, 2.5),
   ('l', 8.5, 2.5), ('z', 1.5, 4), ('x', 2.5, 4), ('c', 3.5, 4), ('v', 4.5, 4), ('b', 5.5, 4),
   ('n', 6.5, 4), ('m', 7.5, 4)]

def tenkeyGroups : List Text :=
  ["アイウエオ", "カキクケコ", "ガギグゲゴ", "サシスセソ", "ザジズゼゾ", "タチツテト",
   "ダヂヅデド", "ナニヌネノ", "ハヒフヘホ", "バビブベボ", "パピプペポ", "マミムメモ",
   "ヤユヨ", "ャュョ", "ラリルレロ", "ワヲンー"].map String.toList

section
variable {F : Type} [Field F] [LinearOrder F] (unicode : UnicodeTable) (sqrt : F → F)

/-- The keys at a distance of at most 1.65, with it. -/
def coordinateNeighbors (character : Text) (coordinates : List (Char × ℚ × ℚ)) : List (Text × F) :=
  match coordinates.find? fun (key, _) => [key] = character with
  | none => []
  | some (_, x, y) =>
    (coordinates.filterMap fun (key, targetX, targetY) =>
      if [key] = character then none
      else
        let distance := sqrt (((x - targetX) ^ 2 + (y - targetY) ^ 2 : ℚ) : F)
        if distance ≤ ((1.65 : ℚ) : F) then some ([key], distance) else none).mergeSort
      fun left right => (compare left.1 right.1).isLE

def tenkeyNeighbors (character : Text) : List (Text × F) :=
  match tenkeyGroups.find? fun group => decide (character <:+: group) with
  | none => []
  | some group =>
    ((graphemes unicode group).filter (· ≠ character)).map fun neighbor => (neighbor, 1)

def neighbors (character : Text) : Topology → List (Text × F)
  | .macQwerty => coordinateNeighbors sqrt character macQwerty
  | .iosQwerty => coordinateNeighbors sqrt character iosQwerty
  | .iosFlickTenkey => tenkeyNeighbors unicode character

end

/-! ### Consuming a key -/

section
variable (unicode : UnicodeTable)

def applied (table : InputTable) (currentText : Text) (added : InputPiece) : Text :=
  (table.apply (graphemes unicode currentText) added).1.flatten

def applyInputTable (input : Text) (table : InputTable) : Text :=
  toKatakana ((graphemes unicode input).foldl
    (fun current piece => applied unicode table current (.character piece)) [])

def matchesPending (key : List KeyElement) (pending : List Grapheme) : Bool :=
  (key.zip pending).all fun (element, character) => element = .piece (.character character)

def hasContinuation (pending : Text) (table : InputTable) : Bool :=
  Session.possibleNexts table pending ≠ [] ||
    table.mappings.any fun mapping =>
      decide ((graphemes unicode pending).length < mapping.key.length) &&
        matchesPending mapping.key (graphemes unicode pending)

/-- The longest end of the raw text that waits for more and is shown as it was typed. -/
def pendingSuffix (raw converted : Text) (table : InputTable) : Text :=
  (((graphemes unicode raw).tails.dropLast.map List.flatten).find? fun suffix =>
    hasContinuation unicode suffix table && applyInputTable unicode suffix table = suffix &&
      suffix.isSuffixOf converted).getD []

def consumeWithEmission (pending newCharacter : Text) (table : Option InputTable) : Text × Text :=
  match table with
  | none => (newCharacter, [])
  | some table =>
    let raw := pending ++ newCharacter
    let converted := applyInputTable unicode raw table
    let nextPending := pendingSuffix unicode raw converted table
    if nextPending = [] then (converted, [])
    else
      let pendingCount := (graphemes unicode nextPending).length
      let convertedCount := (graphemes unicode converted).length
      if convertedCount < pendingCount then ([], nextPending)
      else
        (((graphemes unicode converted).take (convertedCount - pendingCount)).flatten, nextPending)

/-- What a rule with a wildcard at its end writes before it. -/
def wildcardDisplay (pending : List Grapheme) (mapping : Mapping) : Option Text := do
  let anyIndex ← mapping.key.findIdx? (· = .any)
  if anyIndex ≠ mapping.key.length - 1 ∨ anyIndex ≠ pending.length then none
  else if ¬matchesPending (mapping.key.take anyIndex) pending then none
  else
    let output := (mapping.value.takeWhile (· ≠ .any)).flatMap fun element =>
      match element with
      | .character character => character
      | .any => []
    if output = [] then none else some (toKatakana output)

def possibleNextDisplays (pending : Text) (table : InputTable) : List Text :=
  ((Session.possibleNexts table pending ++
    table.mappings.filterMap (wildcardDisplay (graphemes unicode pending))).mergeSort
      fun left right => (compare left right).isLE).dedup

/-! ### The typed keys -/

structure GenerationMode where
  table : Option InputTable
  topology : Topology
  useSurface : Bool
  filterWithLm : Bool

def generationMode (inputStyle : InputStyle) (tables : InputTableRegistry) : GenerationMode :=
  match inputStyle with
  | .romanToKana => ⟨tables.resolve inputStyle, .macQwerty, false, false⟩
  | .mapped _ =>
    let table := tables.resolve inputStyle
    let qwerty := table.any fun table => Session.possibleNexts table [] ≠ []
    ⟨table, if qwerty then .iosQwerty else .iosFlickTenkey, !qwerty, !qwerty⟩
  | .direct => ⟨none, .iosFlickTenkey, true, true⟩

/-- `str::to_lowercase` is the standard library's. -/
def observedInput (lowercase : Text → Text) (composing : ComposingText)
    (useSurface : Bool) : List Text :=
  if useSurface then graphemes unicode (toKatakana composing.surfaceText)
  else
    composing.input.filterMap fun element =>
      match element.piece with
      | .character character => (graphemes unicode character).head?.map lowercase
      | .key intention input _ => (graphemes unicode (intention.getD input)).head?.map lowercase
      | .compositionSeparator => none

end

end BeanKey.LmTypo
