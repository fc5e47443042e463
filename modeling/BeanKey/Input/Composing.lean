import BeanKey.Input.Table
import Mathlib.Algebra.Group.Nat.Defs
import Mathlib.Algebra.Order.Group.Int

/-! The composing text: the typed elements, the surface they convert to, the cursor. -/
namespace BeanKey.Input

inductive InputTableId where
  | empty | defaultRomanToKana | defaultAzik | defaultKanaJis | defaultKanaUs
  | named (name : Text)
  deriving DecidableEq

inductive InputStyle where
  | direct
  | romanToKana
  | mapped (table : InputTableId)
  deriving DecidableEq

def InputStyle.frozen : InputStyle := .mapped .empty

/-- The registry's `empty` table is the empty one in every registry the source builds. -/
structure InputTableRegistry where
  romanToKana : InputTable
  azik : InputTable
  kanaJis : InputTable
  kanaUs : InputTable
  custom : Text → Option InputTable

def InputTableRegistry.resolve (tables : InputTableRegistry) : InputStyle → Option InputTable
  | .direct => none
  | .romanToKana => some tables.romanToKana
  | .mapped .empty => some InputTable.empty
  | .mapped .defaultRomanToKana => some tables.romanToKana
  | .mapped .defaultAzik => some tables.azik
  | .mapped .defaultKanaJis => some tables.kanaJis
  | .mapped .defaultKanaUs => some tables.kanaUs
  | .mapped (.named name) => some ((tables.custom name).getD InputTable.empty)

structure InputElement where
  piece : InputPiece
  inputStyle : InputStyle
  deriving DecidableEq

def InputElement.character (value : Grapheme) (inputStyle : InputStyle) : InputElement :=
  ⟨.character value, inputStyle⟩

/-- The separator that an edit in the middle of a text leaves behind. -/
def InputElement.frozenSeparator : InputElement := ⟨.compositionSeparator, .frozen⟩

inductive ComposingCount where
  | input (count : Nat)
  | surface (count : Nat)
  | composite (left right : ComposingCount)
  deriving DecidableEq

structure ComposingText where
  cursor : Nat := 0
  input : List InputElement := []
  surface : List Grapheme := []
  deriving DecidableEq

structure IndexPair where
  input : Nat
  surface : Nat
  deriving DecidableEq

structure SurfaceSegment where
  graphemes : List Grapheme
  inputStyle : InputStyle
  deriving DecidableEq

/-! ### Conversion -/

def updateSurface (tables : InputTableRegistry) (surface : List Grapheme) (piece : InputPiece)
    (style : InputStyle) : List Grapheme × Nat :=
  match tables.resolve style with
  | some table => table.apply surface piece
  | none => (surface ++ piece.displayed.toList, 0)

/-- The segments are kept with the last one first. The count is what the element
consumed of the last segment. -/
def updateSegments (tables : InputTableRegistry) (segments : List SurfaceSegment)
    (element : InputElement) : List SurfaceSegment × Nat :=
  let fresh : SurfaceSegment :=
    ⟨(updateSurface tables [] element.piece element.inputStyle).1, element.inputStyle⟩
  match segments with
  | last :: rest =>
    if last.inputStyle = element.inputStyle then
      let (surface, deleted) :=
        updateSurface tables last.graphemes element.piece element.inputStyle
      (⟨surface, last.inputStyle⟩ :: rest, deleted)
    else (fresh :: segments, 0)
  | [] => if element.piece = .compositionSeparator then ([], 0) else ([fresh], 0)

def segmentsOf (tables : InputTableRegistry) (elements : List InputElement) :
    List SurfaceSegment :=
  elements.foldl (fun segments element => (updateSegments tables segments element).1) []

def segmentsSurface (segments : List SurfaceSegment) : List Grapheme :=
  segments.reverse.flatMap SurfaceSegment.graphemes

def convertElements (tables : InputTableRegistry) (elements : List InputElement) :
    List Grapheme :=
  segmentsSurface (segmentsOf tables elements)

/-! ### Boundaries -/

def tailLen : List SurfaceSegment → Nat
  | [] => 0
  | last :: _ => last.graphemes.length

/-- The state of the scan in `independent_boundaries`; the stack has its top first. -/
structure BoundaryScan where
  converting : List SurfaceSegment := []
  convertedLen : Nat := 0
  boundaries : List IndexPair := [⟨0, 0⟩]

def BoundaryScan.step (tables : InputTableRegistry) (scan : BoundaryScan)
    (indexed : InputElement × Nat) : BoundaryScan :=
  let (converting, deleted) := updateSegments tables scan.converting indexed.1
  let convertedLen :=
    if converting.length = scan.converting.length then
      scan.convertedLen - tailLen scan.converting + tailLen converting
    else scan.convertedLen + tailLen converting
  { converting
    convertedLen
    boundaries := ⟨indexed.2 + 1, convertedLen⟩ ::
      scan.boundaries.dropWhile fun pair => !(pair.surface ≤ scan.convertedLen - deleted) }

/-- The input positions no later element converts across, the last one first. -/
def independentBoundaries (tables : InputTableRegistry) (input : List InputElement) :
    List IndexPair :=
  (input.zipIdx.foldl (BoundaryScan.step tables) {}).boundaries

inductive CursorSearch where
  | boundary (input : Nat)
  | inside (segmentStart segmentEnd : IndexPair)

def searchCursor (target : Nat) : List IndexPair → IndexPair → CursorSearch
  | [], segmentEnd => .inside ⟨0, 0⟩ segmentEnd
  | start :: rest, segmentEnd =>
    if start.surface = target then .boundary start.input
    else if start.surface < target then .inside start segmentEnd
    else if start.surface < segmentEnd.surface then searchCursor target rest start
    else searchCursor target rest segmentEnd

def frozenCharacters (surface : List Grapheme) : List InputElement :=
  surface.map fun value => .character value .frozen

def commonPrefixLen {α : Type*} [DecidableEq α] : List α → List α → Nat
  | left :: lefts, right :: rights => if left = right then commonPrefixLen lefts rights + 1 else 0
  | _, _ => 0

/-- Subtraction of `usize` values in a release build. -/
def usizeSub (left right : Nat) : Nat := (left + (2 ^ 64 - right % 2 ^ 64)) % 2 ^ 64

/-! ### Editing -/

namespace ComposingText

def new : ComposingText := {}

def isEmpty (text : ComposingText) : Bool := text.surface.isEmpty

def isAtEnd (text : ComposingText) : Bool := text.cursor = text.surface.length

def surfaceText (text : ComposingText) : Text := text.surface.flatten

/-- Makes an input boundary at a surface position, freezing the conversion it splits. -/
def forceInputCursor (tables : InputTableRegistry) (text : ComposingText)
    (targetSurface : Nat) : ComposingText × Nat :=
  if targetSurface = 0 then (text, 0)
  else if text.surface.length ≤ targetSurface then (text, text.input.length)
  else
    match searchCursor targetSurface (independentBoundaries tables text.input)
        ⟨text.input.length, text.surface.length⟩ with
    | .boundary input => (text, input)
    | .inside segmentStart segmentEnd =>
      let frozen := frozenCharacters
        ((text.surface.take segmentEnd.surface).drop segmentStart.surface)
      ({ text with
          input := text.input.take segmentStart.input ++ frozen ++
            text.input.drop segmentEnd.input },
        targetSurface - segmentStart.surface + segmentStart.input)

/-- Drops a frozen separator that an earlier edit left just before `position`. -/
def dropSeparatorBefore (input : List InputElement) (position : Nat) :
    List InputElement × Nat :=
  if 0 < position ∧ input[position - 1]? = some .frozenSeparator then
    (input.eraseIdx (position - 1), position - 1)
  else (input, position)

def insert (tables : InputTableRegistry) (text : ComposingText)
    (elements : List InputElement) : ComposingText :=
  if elements = [] then text
  else
    let (forced, inputCursor) := text.forceInputCursor tables text.cursor
    let elements := if forced.isAtEnd then elements else elements ++ [.frozenSeparator]
    let (input, inputCursor) := dropSeparatorBefore forced.input inputCursor
    let input := input.take inputCursor ++ elements ++ input.drop inputCursor
    let oldPrefix := forced.surface.take forced.cursor
    let newPrefix := convertElements tables (input.take (inputCursor + elements.length))
    let common := commonPrefixLen oldPrefix newPrefix
    let deleted := oldPrefix.length - common
    let added := newPrefix.length - common
    { input
      surface := newPrefix ++ forced.surface.drop forced.cursor
      cursor := forced.cursor - deleted + added }

def insertStr (unicode : UnicodeTable) (tables : InputTableRegistry) (text : ComposingText)
    (value : Text) (inputStyle : InputStyle) : ComposingText :=
  text.insert tables ((graphemes unicode value).map fun value => .character value inputStyle)

def deleteBackward (tables : InputTableRegistry) (text : ComposingText) (count : Nat) :
    ComposingText :=
  let count := min count text.cursor
  if count = 0 then text
  else
    let (targeted, target) := text.forceInputCursor tables (text.cursor - count)
    let (forced, current) := targeted.forceInputCursor tables text.cursor
    let (input, target') := dropSeparatorBefore forced.input target
    let current := current - (target - target')
    let input :=
      if target' = 0 ∨ current = input.length then input.take target' ++ input.drop current
      else input.take target' ++ [.frozenSeparator] ++ input.drop current
    { input
      surface := convertElements tables input
      cursor := text.cursor - count }

def deleteForward (tables : InputTableRegistry) (text : ComposingText) (count : Nat) :
    ComposingText :=
  let count := min count (text.surface.length - text.cursor)
  if count = 0 then text
  else { text with cursor := text.cursor + count }.deleteBackward tables count

def moveCursor (text : ComposingText) (count : Int) : ComposingText × Int :=
  let minimum : Int := -(text.cursor : Int)
  let maximum : Int := (text.surface.length - text.cursor : Nat)
  let moved := max minimum (min count maximum)
  ({ text with cursor := (text.cursor + moved).toNat }, moved)

def completePrefix (tables : InputTableRegistry) (text : ComposingText) :
    ComposingCount → ComposingText
  | .input count =>
    let count := min count text.input.length
    let input := text.input.drop count
    let surface := convertElements tables input
    let cursorDelta := usizeSub text.surface.length surface.length
    let cursor := text.cursor - cursorDelta
    { input, surface, cursor := if cursor = 0 then surface.length else cursor }
  | .surface count =>
    let count := min count text.surface.length
    let (forced, inputIndex) := text.forceInputCursor tables count
    let surface := forced.surface.drop count
    let cursor := forced.cursor - count
    { input := forced.input.drop inputIndex
      surface
      cursor := if cursor = 0 then surface.length else cursor }
  | .composite left right => (text.completePrefix tables left).completePrefix tables right

def prefixToCursor (tables : InputTableRegistry) (text : ComposingText) : ComposingText :=
  let (forced, inputIndex) := text.forceInputCursor tables text.cursor
  { forced with
    input := forced.input.take inputIndex
    surface := forced.surface.take forced.cursor }

def stop (_ : ComposingText) : ComposingText := {}

def hasIdentityMapping (text : ComposingText) : Bool :=
  text.input.length = text.surface.length &&
    text.input.all fun element => element.inputStyle = .direct &&
      match element.piece with
      | .character _ => true
      | _ => false

def inputToSurfaceMap (tables : InputTableRegistry) (text : ComposingText) : List (Nat × Nat) :=
  if text.hasIdentityMapping then
    (List.range (text.input.length + 1)).map fun index => (index, index)
  else
    (independentBoundaries tables text.input).map fun pair => (pair.input, pair.surface)

end ComposingText

end BeanKey.Input
