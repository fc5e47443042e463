import BeanKey.Input.Composing
import BeanKey.Lattice.Search

/-! Candidates, what a conversion answers, and the texts the desktop derives from a reading. -/
namespace BeanKey

def stripPrefix : Text → Text → Option Text
  | text, [] => some text
  | [], _ :: _ => none
  | character :: text, expected :: start =>
    if character = expected then stripPrefix text start else none

theorem stripPrefix_append (start rest : Text) : stripPrefix (start ++ rest) start = some rest := by
  induction start with
  | nil => cases rest <;> rfl
  | cons character start ih => rw [List.cons_append, stripPrefix, if_pos rfl, ih]

theorem append_of_stripPrefix {text start rest : Text} (h : stripPrefix text start = some rest) :
    text = start ++ rest := by
  induction start generalizing text with
  | nil =>
    rw [stripPrefix.eq_def] at h
    exact Option.some.inj h
  | cons expected start ih =>
    cases text with
    | nil => cases h
    | cons character text =>
      rw [stripPrefix] at h
      split at h
      · next hsame => rw [hsame, ih h, List.cons_append]
      · cases h

def isAsciiAlphabetic (character : Char) : Bool :=
  ('a' ≤ character && character ≤ 'z') || ('A' ≤ character && character ≤ 'Z')

def fullWidthChar (character : Char) : Char :=
  if character = ' ' then '\u3000'
  else if character = '¥' then '￥'
  else if '!' ≤ character ∧ character ≤ '~' then Char.ofNat (character.toNat + 0xfee0)
  else character

def toFullWidth (value : Text) : Text := value.map fullWidthChar

def halfWidthPairs : List (Char × Text) :=
  "。「」、・ヲァィゥェォャュョッーアイウエオカキクケコサシスセソタチツテトナニヌネノハヒフヘホマミムメモヤユヨラリルレロワン".toList.zip
    ("｡｢｣､･ｦｧｨｩｪｫｬｭｮｯｰｱｲｳｴｵｶｷｸｹｺｻｼｽｾｿﾀﾁﾂﾃﾄﾅﾆﾇﾈﾉﾊﾋﾌﾍﾎﾏﾐﾑﾒﾓﾔﾕﾖﾗﾘﾙﾚﾛﾜﾝ".toList.map
      fun character => [character]) ++
  "ヴガギグゲゴザジズゼゾダヂヅデドバビブベボ".toList.zip
    ("ｳｶｷｸｹｺｻｼｽｾｿﾀﾁﾂﾃﾄﾊﾋﾌﾍﾎ".toList.map fun character => [character, 'ﾞ']) ++
  "パピプペポ".toList.zip ("ﾊﾋﾌﾍﾎ".toList.map fun character => [character, 'ﾟ'])

def toHalfWidth (value : Text) : Text :=
  value.flatMap fun character => (halfWidthPairs.lookup character).getD [character]

namespace Session
open Input BeanKey.Lattice

structure Candidate where
  text : Text
  value : ℚ
  composingCount : ComposingCount
  lastMeaningId : Nat
  entries : List DictionaryEntry
  isLearningTarget : Bool := true
  deriving DecidableEq

def Candidate.reading (candidate : Candidate) : Text :=
  candidate.entries.flatMap DictionaryEntry.ruby

structure ConversionResult where
  mainResults : List Candidate := []
  predictionResults : List Candidate := []
  firstClauseResults : List Candidate := []

def firstByText : List Text → List Candidate → List Candidate
  | _, [] => []
  | seen, candidate :: candidates =>
    if candidate.text ∈ seen then firstByText seen candidates
    else candidate :: firstByText (candidate.text :: seen) candidates

def ConversionResult.mergedDesktopCandidates (result : ConversionResult) : List Candidate :=
  firstByText [] (result.firstClauseResults ++ result.mainResults)

def rawInput (input : List InputElement) : Text :=
  input.flatMap fun element =>
    match element.piece with
    | .character value => value
    | .key _ input _ => input
    | .compositionSeparator => []

structure PredictiveInputSource where
  baseSurface : Text
  possibleNexts : List Text
  droppedSuffixCount : Nat

/-- A mapping with a wildcard, a separator or a key never completes a prefix. -/
def possibleNexts (table : InputTable) (start : Text) : List Text :=
  table.mappings.filterMap fun mapping => do
    let key ← mapping.key.mapM fun element =>
      match element with
      | .piece (.character value) => some value
      | _ => none
    if start = [] ∨ key.flatten.length ≤ start.length ∨ ¬start.isPrefixOf key.flatten then none
    else
      let value ← mapping.value.mapM fun element =>
        match element with
        | .character value => some value
        | .any => none
      some (toKatakana value.flatten)

def predictiveInputSource (tables : InputTableRegistry) (composing : ComposingText) :
    PredictiveInputSource :=
  let surface := composing.surfaceText
  match composing.input.getLast? with
  | none => ⟨surface, [], 0⟩
  | some last =>
    let suffix := (surface.reverse.takeWhile isAsciiAlphabetic).reverse
    if last.inputStyle = .direct ∨ suffix = [] then ⟨surface, [], 0⟩
    else
      let nexts :=
        match tables.resolve last.inputStyle with
        | some table => possibleNexts table suffix
        | none => []
      if nexts = [] then ⟨surface, [], 0⟩
      else ⟨surface.take (surface.length - suffix.length), nexts, suffix.length⟩

/-- The base is the surface without a suffix of letters. -/
theorem predictiveInputSource_split (tables : InputTableRegistry) (composing : ComposingText) :
    ∃ suffix, composing.surfaceText =
      (predictiveInputSource tables composing).baseSurface ++ suffix ∧
      suffix.length = (predictiveInputSource tables composing).droppedSuffixCount ∧
      ∀ value ∈ suffix, isAsciiAlphabetic value = true := by
  unfold predictiveInputSource
  cases composing.input.getLast? with
  | none => exact ⟨[], by simp, rfl, by simp⟩
  | some last =>
    dsimp only
    generalize hsuffix : (composing.surfaceText.reverse.takeWhile isAsciiAlphabetic).reverse =
      suffix
    have hletters : ∀ value ∈ suffix, isAsciiAlphabetic value = true := by
      intro value hin
      rw [← hsuffix, List.mem_reverse] at hin
      exact List.mem_takeWhile_imp hin
    have hend : suffix <:+ composing.surfaceText := by
      rw [← hsuffix, ← List.reverse_prefix, List.reverse_reverse]
      exact List.takeWhile_prefix _
    obtain ⟨before, hbefore⟩ := hend
    split
    · exact ⟨[], by simp, rfl, by simp⟩
    · cases tables.resolve last.inputStyle with
      | none => exact ⟨[], by simp, rfl, by simp⟩
      | some table =>
        dsimp only
        split
        · exact ⟨[], by simp, rfl, by simp⟩
        · exact ⟨suffix, by simp [← hbefore], rfl, hletters⟩

theorem length_le_length_flatten {texts : List Text} (h : ∀ text ∈ texts, text ≠ []) :
    texts.length ≤ texts.flatten.length := by
  induction texts with
  | nil => exact Nat.le_refl _
  | cons text rest ih =>
    obtain ⟨hne, hrest⟩ := List.forall_mem_cons.mp h
    have hlength := List.length_pos_iff.mpr hne
    have htail := ih hrest
    simp only [List.length_cons, List.flatten_cons, List.length_append]
    omega

/-- Without as many graphemes as the suffix has letters, a text is never longer than without the
suffix. -/
theorem take_graphemes_prefix (unicode : UnicodeTable) {surface base suffix : Text} {count : Nat}
    (hsurface : surface = base ++ suffix) (hcount : suffix.length = count) :
    ((graphemes unicode surface).take ((graphemes unicode surface).length - count)).flatten <+:
      base := by
  have hwhole : ((graphemes unicode surface).take ((graphemes unicode surface).length -
      count)).flatten ++ ((graphemes unicode surface).drop ((graphemes unicode surface).length -
        count)).flatten = base ++ suffix := by
    rw [← List.flatten_append, List.take_append_drop, flatten_graphemes, hsurface]
  apply List.prefix_of_prefix_length_le ⟨_, hwhole⟩ (List.prefix_append base suffix)
  have hlength := congrArg List.length hwhole
  by_cases hlong : count ≤ (graphemes unicode surface).length
  · have hne : ∀ text ∈ (graphemes unicode surface).drop
        ((graphemes unicode surface).length - count), text ≠ [] :=
      fun text hin => ne_nil_of_mem_graphemes unicode (List.mem_of_mem_drop hin)
    have hdropped := length_le_length_flatten hne
    rw [List.length_drop] at hdropped
    rw [List.length_append, List.length_append] at hlength
    omega
  · rw [Nat.sub_eq_zero_of_le (by omega)]
    exact Nat.zero_le _

end Session

end BeanKey
