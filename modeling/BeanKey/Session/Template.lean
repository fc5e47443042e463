import BeanKey.Library.Scanning
import BeanKey.Session.Candidate

/-! Templates in the word of an entry: tags that are replaced by a date or a random value. -/
namespace BeanKey.Template

def isAsciiWhitespace (character : Char) : Bool :=
  character = ' ' || character = '\t' || character = '\n' || character = '\x0c' || character = '\r'

def splitAsciiWhitespace (text : Text) : List Text :=
  (text.splitOnP isAsciiWhitespace).filter (· ≠ [])

def stripSuffix (text ending : Text) : Option Text :=
  (stripPrefix text.reverse ending.reverse).map List.reverse

def attributeOf (tag key : Text) : Option Text := do
  let opening := key ++ ['=', '"']
  let start ← (splitAsciiWhitespace tag).find? opening.isPrefixOf
  let value ← stripPrefix start opening
  (stripSuffix value ['"', '>']).or (stripSuffix value ['"'])

def unescape (value : Text) : Text :=
  let value := Scanning.replacePair '\\' 'd' ['"'] value
  let value := Scanning.replacePair '\\' 's' [' '] value
  let value := Scanning.replacePair '\\' 'c' [','] value
  let value := Scanning.replacePair '\\' 't' ['\t'] value
  let value := Scanning.replacePair '\\' 'n' ['\n'] value
  let value := Scanning.replacePair '\\' '0' ['\x00'] value
  Scanning.replacePair '\\' 'b' ['\\'] value

def i64Min : Int := -2 ^ 63

def i64Max : Int := 2 ^ 63 - 1

def readDigits (text : Text) : Option Int :=
  if text ≠ [] ∧ text.all Char.isDigit then some (Nat.ofDigitChars 10 text 0) else none

/-- `parse::<i64>`: digits behind at most one sign, within the bounds. -/
def parseI64 (text : Text) : Option Int :=
  let number :=
    match text with
    | '+' :: text => readDigits text
    | '-' :: text => (readDigits text).map (- ·)
    | text => readDigits text
  number.filter fun number => i64Min ≤ number ∧ number ≤ i64Max

def writeI64 : Int → Text
  | .ofNat number => Nat.toDigits 10 number
  | .negSucc number => '-' :: Nat.toDigits 10 (number + 1)

def checkedMul (left right : Int) : Option Int :=
  if i64Min ≤ left * right ∧ left * right ≤ i64Max then some (left * right) else none

/-! ### Dates -/

/-- The clock and the names that dates are written with. -/
structure Calendar (Moment : Type) where
  /-- The moment so many seconds from now, if `Duration` and the clock reach it. -/
  after : Int → Option Moment
  /-- `format_date`, for a pattern, a calendar and a language. -/
  formatDate : Text → Text → Text → Moment → Option Text

/-- What a date tag with these attributes is replaced by. -/
def Calendar.value {Moment : Type} (calendar : Calendar Moment) (format kind language : Text)
    (delta deltaUnit : Int) : Option Text := do
  let duration ← checkedMul delta deltaUnit
  let date ← calendar.after duration
  calendar.formatDate format kind language date

def expandDateTemplate {Moment : Type} (calendar : Calendar Moment) (tag : Text) : Option Text := do
  let format ← attributeOf tag "format".toList
  let kind ← attributeOf tag "type".toList
  let language ← attributeOf tag "language".toList
  let delta ← attributeOf tag "delta".toList
  let deltaUnit ← attributeOf tag "deltaunit".toList
  calendar.value (unescape format) kind language ((parseI64 delta).getD 0)
    ((parseI64 deltaUnit).getD 0)

/-! ### Random values -/

structure Random (Source Double : Type) where
  /-- `random_range` on whole numbers. -/
  range : Int → Int → Source → Int × Source
  parseDouble : Text → Option Double
  isFinite : Double → Bool
  le : Double → Double → Bool
  /-- `random_range` on `f64`. -/
  doubleRange : Double → Double → Source → Double × Source
  showDouble : Double → Text
  /-- `choose`, which gives nothing for no values. -/
  choose : List Text → Source → Option Text × Source

section
variable {Source Double : Type}

def splitComma (value : Text) : Option (Text × Text) :=
  if ',' ∈ value then some (value.takeWhile (· ≠ ','), (value.dropWhile (· ≠ ',')).tail) else none

def Random.intValue (random : Random Source Double) (value : Text) (source : Source) :
    Option Text × Source :=
  let bounds := do
    let (left, right) ← splitComma value
    let left ← parseI64 left
    let right ← parseI64 right
    if left ≤ right then some (left, right) else none
  match bounds with
  | none => (none, source)
  | some (left, right) =>
    let (number, source) := random.range left right source
    (some (writeI64 number), source)

def Random.doubleValue (random : Random Source Double) (value : Text) (source : Source) :
    Option Text × Source :=
  let bounds := do
    let (left, right) ← splitComma value
    let left ← random.parseDouble left
    let right ← random.parseDouble right
    if random.isFinite left ∧ random.isFinite right ∧ random.le left right then some (left, right)
    else none
  match bounds with
  | none => (none, source)
  | some (left, right) =>
    let (number, source) := random.doubleRange left right source
    (some (random.showDouble number), source)

def Random.stringValue (random : Random Source Double) (value : Text) (source : Source) :
    Option Text × Source :=
  let (chosen, source) := random.choose (value.splitOn ',') source
  (chosen.or (some "データ無し".toList), source)

/-- What a random tag with these attributes is replaced by. -/
def Random.value (random : Random Source Double) (kind value : Text) (source : Source) :
    Option Text × Source :=
  if kind = "int".toList then random.intValue value source
  else if kind = "double".toList then random.doubleValue value source
  else if kind = "string".toList then random.stringValue value source
  else (none, source)

def expandRandomTemplate (random : Random Source Double) (tag : Text) (source : Source) :
    Option Text × Source :=
  match attributeOf tag "type".toList, attributeOf tag "value".toList with
  | some kind, some value => random.value kind (unescape value) source
  | _, _ => (none, source)

/-! ### Replacing tags -/

structure Search (Source : Type) where
  output : Text
  searchFrom : Nat
  source : Source

def findTag (opening output : Text) (searchFrom : Nat) : Option (Nat × Nat) := do
  let relativeStart ← Scanning.find opening (output.drop searchFrom)
  let start := searchFrom + relativeStart
  let relativeEnd ← Scanning.find ['>'] (output.drop start)
  some (start, start + relativeEnd + 1)

/-- What one round of `replace_tags` does with the tag that it found. -/
def Search.replaceRange (state : Search Source) (start stop : Nat) :
    Option Text × Source → Search Source
  | (some value, source) =>
    { output := state.output.take start ++ value ++ state.output.drop stop
      searchFrom := start + value.length
      source }
  | (none, source) => { output := state.output, searchFrom := stop, source }

variable (opening : Text) (replacement : Text → Source → Option Text × Source)

def replaceTag (state : Search Source) : Option (Search Source) :=
  (findTag opening state.output state.searchFrom).map fun (start, stop) =>
    state.replaceRange start stop
      (replacement ((state.output.drop start).take (stop - start)) state.source)

variable {opening replacement}

theorem findTag_inside {output : Text} {searchFrom start stop : Nat}
    (h : findTag opening output searchFrom = some (start, stop)) :
    searchFrom ≤ start ∧ start < stop ∧ stop ≤ output.length := by
  rw [findTag, Option.bind_eq_bind] at h
  obtain ⟨relativeStart, -, h⟩ := Option.bind_eq_some_iff.mp h
  obtain ⟨relativeEnd, hend, h⟩ := Option.bind_eq_some_iff.mp h
  obtain ⟨rfl, rfl⟩ := Prod.mk.inj (Option.some.inj h)
  have hlength := Scanning.find_length hend
  rw [List.length_drop, List.length_singleton] at hlength
  omega

/-- A tag that is not replaced is as good as replaced by itself. -/
theorem Search.replaceRange_eq (state : Search Source) {start stop : Nat} (hstart : start ≤ stop)
    (hstop : stop ≤ state.output.length) (result : Option Text × Source) :
    state.replaceRange start stop result =
      { output := state.output.take start ++
          result.1.getD ((state.output.drop start).take (stop - start)) ++ state.output.drop stop
        searchFrom := start + (result.1.getD ((state.output.drop start).take (stop - start))).length
        source := result.2 } := by
  obtain ⟨value, source⟩ := result
  cases value with
  | some value => rfl
  | none =>
    have hsplit : (state.output.drop start).take (stop - start) ++ state.output.drop stop =
        state.output.drop start := by
      have hdrop : state.output.drop stop = (state.output.drop start).drop (stop - start) := by
        rw [List.drop_drop, Nat.add_sub_cancel' hstart]
      rw [hdrop, List.take_append_drop]
    have hlength : start + ((state.output.drop start).take (stop - start)).length = stop := by
      rw [List.length_take, List.length_drop]
      omega
    simp only [replaceRange, Option.getD_none, hlength, List.append_assoc, hsplit,
      List.take_append_drop]

theorem replaceTag_remaining {state next : Search Source}
    (h : replaceTag opening replacement state = some next) :
    next.output.length - next.searchFrom < state.output.length - state.searchFrom := by
  obtain ⟨⟨start, stop⟩, htag, rfl⟩ := Option.map_eq_some_iff.mp h
  obtain ⟨hstart, hstop, hlength⟩ := findTag_inside htag
  simp only [state.replaceRange_eq hstop.le hlength, List.length_append, List.length_take,
    List.length_drop]
  omega

variable (opening replacement)

def replaceFrom (state : Search Source) : Search Source :=
  match _h : replaceTag opening replacement state with
  | none => state
  | some next => replaceFrom next
termination_by state.output.length - state.searchFrom
decreasing_by exact replaceTag_remaining _h

def replaceTags (text : Text) (source : Source) : Text × Source :=
  let final := replaceFrom opening replacement { output := text, searchFrom := 0, source }
  (final.output, final.source)

end

def dateOpening : Text := "<date format=\"".toList

def randomOpening : Text := "<random type=\"".toList

def expandTemplates {Moment Source Double : Type} (calendar : Calendar Moment)
    (random : Random Source Double) (text : Text) (source : Source) : Text × Source :=
  let (output, source) :=
    replaceTags dateOpening (fun tag source => (expandDateTemplate calendar tag, source)) text
      source
  replaceTags randomOpening (expandRandomTemplate random) output source

end BeanKey.Template
