import BeanKey.Library.Segmentation

/-! Texts, kana and grapheme clusters, as the converter uses them. -/
namespace BeanKey

/-- A `String` of the source, by its characters. -/
abbrev Text := List Char

abbrev Grapheme := Text

instance : LawfulBEq Text := inferInstance

def katakanaChar (character : Char) : Char :=
  if 0x3041 ≤ character.toNat ∧ character.toNat ≤ 0x3096 then Char.ofNat (character.toNat + 96)
  else character

def hiraganaChar (character : Char) : Char :=
  if 0x30a1 ≤ character.toNat ∧ character.toNat ≤ 0x30f6 then Char.ofNat (character.toNat - 96)
  else character

def toKatakana (value : Text) : Text := value.map katakanaChar

def toHiragana (value : Text) : Text := value.map hiraganaChar

/-- The character properties the segmentation crate ships. The converter relies on
kana being one class: hiragana and katakana of one syllable segment alike. -/
structure UnicodeTable where
  properties : Char → Segmentation.Properties
  katakana_alike : ∀ c, properties (katakanaChar c) = properties c
  hiragana_alike : ∀ c, properties (hiraganaChar c) = properties c

def utf8 (value : Text) : List UInt8 := value.flatMap String.utf8EncodeChar

theorem utf8_cons (character : Char) (value : Text) :
    utf8 (character :: value) = String.utf8EncodeChar character ++ utf8 value := List.flatMap_cons

theorem utf8_append (value other : Text) : utf8 (value ++ other) = utf8 value ++ utf8 other :=
  List.flatMap_append

theorem toNat_ofNat {n : Nat} (h : n.isValidChar) : (Char.ofNat n).toNat = n := by
  rw [Char.ofNat, dif_pos h]
  rfl

def isSoundMark (character : Char) : Bool :=
  character.toNat = 0x3099 || character.toNat = 0x309a

theorem isSoundMark_katakanaChar (character : Char) :
    isSoundMark (katakanaChar character) = isSoundMark character := by
  unfold katakanaChar
  by_cases h : 0x3041 ≤ character.toNat ∧ character.toNat ≤ 0x3096
  · rw [if_pos h, isSoundMark, isSoundMark, toNat_ofNat (.inl (by omega)), Bool.eq_iff_iff]
    simp only [Bool.or_eq_true, decide_eq_true_eq]
    omega
  · rw [if_neg h]

theorem isSoundMark_hiraganaChar (character : Char) :
    isSoundMark (hiraganaChar character) = isSoundMark character := by
  unfold hiraganaChar
  by_cases h : 0x30a1 ≤ character.toNat ∧ character.toNat ≤ 0x30f6
  · rw [if_pos h, isSoundMark, isSoundMark, toNat_ofNat (.inl (by omega)), Bool.eq_iff_iff]
    simp only [Bool.or_eq_true, decide_eq_true_eq]
    omega
  · rw [if_neg h]

/-- Both ways to write a syllable have the same hiragana. -/
theorem hiraganaChar_hiraganaChar (character : Char) :
    hiraganaChar (hiraganaChar character) = hiraganaChar character := by
  by_cases h : 0x30a1 ≤ character.toNat ∧ character.toNat ≤ 0x30f6
  · have hchar : hiraganaChar character = Char.ofNat (character.toNat - 96) := if_pos h
    rw [hchar, hiraganaChar, toNat_ofNat (.inl (by omega)), if_neg (by omega)]
  · have hchar : hiraganaChar character = character := if_neg h
    rw [hchar, hchar]

theorem katakanaChar_hiraganaChar (character : Char) :
    katakanaChar (hiraganaChar character) = katakanaChar character := by
  by_cases h : 0x30a1 ≤ character.toNat ∧ character.toNat ≤ 0x30f6
  · have hchar : hiraganaChar character = Char.ofNat (character.toNat - 96) := if_pos h
    rw [hchar, katakanaChar, katakanaChar, toNat_ofNat (.inl (by omega)), if_pos (by omega),
      if_neg (by omega), Nat.sub_add_cancel (by omega)]
    exact Char.ofNat_toNat character
  · rw [hiraganaChar, if_neg h]

@[simp] theorem toHiragana_toHiragana (value : Text) :
    toHiragana (toHiragana value) = toHiragana value := by
  rw [toHiragana, toHiragana, List.map_map]
  exact List.map_congr_left fun character _ => hiraganaChar_hiraganaChar character

@[simp] theorem toKatakana_toHiragana (value : Text) :
    toKatakana (toHiragana value) = toKatakana value := by
  rw [toKatakana, toHiragana, List.map_map]
  exact List.map_congr_left fun character _ => katakanaChar_hiraganaChar character

/-- The table restricted to kana: only the combining sound marks extend a cluster. -/
def UnicodeTable.kana : UnicodeTable where
  properties character := { kind := if isSoundMark character then .extend else .other }
  katakana_alike character := by rw [isSoundMark_katakanaChar]
  hiragana_alike character := by rw [isSoundMark_hiraganaChar]

variable (unicode : UnicodeTable)

def graphemes (value : Text) : List Grapheme :=
  Segmentation.segment (Segmentation.clusterRule unicode.properties) value

@[simp] theorem graphemes_nil : graphemes unicode [] = [] := rfl

@[simp] theorem flatten_graphemes (value : Text) : (graphemes unicode value).flatten = value :=
  Segmentation.flatten_segment _ value

theorem graphemes_eq_nil {value : Text} : graphemes unicode value = [] ↔ value = [] :=
  Segmentation.segment_eq_nil _

theorem graphemes_drop (value : Text) (start : Nat) :
    graphemes unicode ((graphemes unicode value).drop start).flatten =
      (graphemes unicode value).drop start :=
  Segmentation.segment_flatten_drop _ value start

theorem graphemes_take_drop (value : Text) (start count : Nat) :
    graphemes unicode (((graphemes unicode value).drop start).take count).flatten =
      ((graphemes unicode value).drop start).take count := by
  have hdrop := graphemes_drop unicode value start
  have htake := Segmentation.segment_flatten_take (Segmentation.clusterRule unicode.properties)
    ((graphemes unicode value).drop start).flatten count
  change graphemes unicode ((graphemes unicode _).take count).flatten =
    (graphemes unicode _).take count
    at htake
  rwa [hdrop] at htake

/-- As many graphemes as the first text has alone hold it, with what its last one takes of the
second. -/
theorem graphemes_append (first second : Text) :
    ∃ joined rest, second = joined ++ rest ∧
      ((graphemes unicode (first ++ second)).take (graphemes unicode first).length).flatten =
        first ++ joined ∧
      (graphemes unicode (first ++ second)).drop (graphemes unicode first).length =
      graphemes unicode rest :=
  Segmentation.segment_append _ first second

theorem ne_nil_of_mem_graphemes {value : Text} {grapheme : Grapheme}
    (h : grapheme ∈ graphemes unicode value) : grapheme ≠ [] :=
  Segmentation.ne_nil_of_mem_segment _ h

/-- Texts that stay the graphemes of whatever is made of them. -/
def Apart (pieces : Grapheme → Prop) : Prop :=
  Segmentation.Apart (Segmentation.clusterRule unicode.properties) pieces

/-- Kana conversion keeps the grapheme boundaries. -/
theorem graphemes_toKatakana (value : Text) :
    graphemes unicode (toKatakana value) = (graphemes unicode value).map toKatakana :=
  Segmentation.segment_map _ _ katakanaChar
    (Segmentation.clusterRule_map _ _ katakanaChar unicode.katakana_alike) value

theorem graphemes_toHiragana (value : Text) :
    graphemes unicode (toHiragana value) = (graphemes unicode value).map toHiragana :=
  Segmentation.segment_map _ _ hiraganaChar
    (Segmentation.clusterRule_map _ _ hiraganaChar unicode.hiragana_alike) value

end BeanKey
