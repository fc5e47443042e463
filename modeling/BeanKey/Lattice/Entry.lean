import BeanKey.Zenz.Constraint
import BeanKey.Library.Rounding

/-! Dictionary entries and what the lookups return. Values are finite numbers; what is computed of
them is rounded. -/
namespace BeanKey.Lattice
open Rounding

structure DictionaryMetadata where
  learned : Bool := false
  userDictionary : Bool := false
  deriving DecidableEq

structure DictionaryEntry where
  word : Text
  ruby : Text
  leftId : Nat
  rightId : Nat
  meaningId : Nat
  baseValue : ℚ
  adjustment : ℚ := 0
  metadata : DictionaryMetadata := {}
  deriving DecidableEq

def DictionaryEntry.value [Rounding] (entry : DictionaryEntry) : ℚ :=
  min 0 (rounded (entry.baseValue + entry.adjustment))

def DictionaryEntry.adjusted [Rounding] (entry : DictionaryEntry) (value : ℚ) : DictionaryEntry :=
  { entry with adjustment := rounded (entry.adjustment + value) }

def dictionaryThreshold : ℚ := -17

def maximumDictionaryLength : Nat := 20

variable (unicode : UnicodeTable)

def shouldRemove [Rounding] (entry : DictionaryEntry) : Bool :=
  let distance := rounded (entry.value - dictionaryThreshold)
  if distance < 0 then true
  else
    let wordCount := (graphemes unicode entry.word).length
    wordCount = 0 || rounded (-2 / (wordCount : ℚ)) < -distance

def typoAdjustment [Rounding] (entry : DictionaryEntry) (penalty : ℚ) : ℚ :=
  let ratio : ℚ := if 147 ≤ entry.leftId ∧ entry.leftId ≤ 554 then 5 / 2 else 1
  let wordCount := max (graphemes unicode entry.word).length 1
  rounded (rounded (rounded (-1 / (wordCount : ℚ)) * penalty) * ratio)

/-- The kana itself, as words. -/
def singleCharacterEntries (katakana : Grapheme) : List DictionaryEntry :=
  let hiragana := toHiragana katakana
  let words : List (Text × ℚ) :=
    if hiragana = katakana then [(katakana, -14)] else [(hiragana, -13), (katakana, -14)]
  words.map fun (word, value) =>
    { word
      ruby := katakana
      leftId := 1288
      rightId := 1288
      meaningId := 501
      baseValue := value }

theorem singleCharacterEntries_ne_nil (katakana : Grapheme) :
    singleCharacterEntries katakana ≠ [] := by
  by_cases h : toHiragana katakana = katakana <;> simp [singleCharacterEntries, h]

structure DictionaryMatch where
  surfaceEnd : Nat
  entries : List DictionaryEntry

/-- What the dictionary and the learning memory answer. A match is the prefix of the
reading that was looked up, so it ends within the reading and the maximum length. -/
structure Lookups where
  matchesFromStart : Text → Nat → List DictionaryMatch
  matches_within : ∀ ruby maximumLength, ∀ found ∈ matchesFromStart ruby maximumLength,
    0 < found.surfaceEnd ∧
      found.surfaceEnd ≤ min maximumLength (graphemes unicode ruby).length
  exactMatch : Text → List DictionaryEntry
  connectionCost : Nat → Nat → ℚ
  learnedMatches : Text → Nat → List DictionaryEntry
  learnedExact : Text → List DictionaryEntry

def Lookups.empty : Lookups unicode where
  matchesFromStart := fun _ _ => []
  matches_within := by simp
  exactMatch := fun _ => []
  connectionCost := fun _ _ => 0
  learnedMatches := fun _ _ => []
  learnedExact := fun _ => []

/-- A hash map hands its entries out in some order, each map in its own; `map` tells the maps of
one run apart. -/
structure HashOrder where
  arrange : {α : Type} → Nat → List α → List α
  perm : ∀ {α : Type} (map : Nat) (entries : List α), (arrange map entries).Perm entries

def HashOrder.identity : HashOrder := ⟨fun _ => id, fun _ _ => .rfl⟩

end BeanKey.Lattice
