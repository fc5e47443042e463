import BeanKey.Library.TopK
import BeanKey.Lattice.Index
import BeanKey.Lattice.Typo

/-! The lattice over a composing text and the search through it. An index outside the
lattice or the reading, where the source panics, is `none`. -/
namespace BeanKey.Lattice
open Input Zenz Rounding

structure ConversionContext where
  rightId : Nat := 0
  meaningId : Nat := 500
  deriving DecidableEq

structure ConversionModifiers where
  additionalEntries : List DictionaryEntry := []
  needTypoCorrection : Bool := false
  constraint : Option PrefixConstraint := none

/-- `slot` is where the node stands: its start, and its place among the nodes there. -/
structure LatticeNode where
  slot : LatticeIndex × Nat
  entry : DictionaryEntry
  range : LatticeRange
  deriving DecidableEq

structure RegisteredPath where
  nodes : List LatticeNode
  total : ℚ
  deriving DecidableEq

/-- The path before a node; `nodes` is empty where the node starts the text. -/
structure Predecessor where
  nodes : List LatticeNode
  total : ℚ
  deriving DecidableEq

structure LatticeNodes where
  surfaceNodes : List (List LatticeNode)
  inputNodes : List (List LatticeNode)

/-! ### Nodes -/

section nodes
variable {unicode : UnicodeTable} (lookups : Lookups unicode)

/-- A user or learned entry that stands at the beginning of the rest of the reading. -/
def fitsReading [Rounding] (unicode : UnicodeTable) (suffix : Text) (remaining : Nat)
    (entry : DictionaryEntry) : Bool :=
  let rubyCount := (graphemes unicode entry.ruby).length
  !(rubyCount = 0 || maximumDictionaryLength < rubyCount || remaining < rubyCount ||
    !entry.ruby.isPrefixOf suffix || shouldRemove unicode entry)

def surfaceEntries [Rounding] (additionalEntries : List DictionaryEntry) (surfaceCount : Nat)
    (katakanaGraphemes : List Grapheme) (start : Nat) : Option (List (DictionaryEntry × Nat)) :=
  katakanaGraphemes[start]?.map fun grapheme =>
    let suffix := (katakanaGraphemes.drop start).flatten
    let matched := (lookups.matchesFromStart suffix maximumDictionaryLength).flatMap fun found =>
      (found.entries.filter fun entry => !shouldRemove unicode entry).map
        fun entry => (entry, start + found.surfaceEnd)
    let characters := (singleCharacterEntries grapheme).map fun entry => (entry, start + 1)
    let learned := lookups.learnedMatches suffix maximumDictionaryLength
    let added := ((additionalEntries ++ learned).filter
      (fitsReading unicode suffix (surfaceCount - start))).map
        fun entry => (entry, start + (graphemes unicode entry.ruby).length)
    matched ++ characters ++ added

/-- The entries at an input position, for the readings it may have been mistyped from. -/
def inputEntries [Rounding] (order : HashOrder) (tables : InputTableRegistry)
    (additionalEntries : List DictionaryEntry) (input : List InputElement) (start : Nat) :
    List (DictionaryEntry × Nat) :=
  (typoPrefixes unicode order (input.drop start) tables maximumDictionaryLength).flatMap
    fun found =>
      let entries := lookups.exactMatch found.ruby ++
        (additionalEntries.filter fun entry => entry.ruby = found.ruby) ++
          lookups.learnedExact found.ruby
      ((entries.map fun entry => entry.adjusted (typoAdjustment unicode entry found.penalty)).filter
        fun entry => !shouldRemove unicode entry).map fun entry => (entry, start + found.consumed)

def placeNodes (start : LatticeIndex) (range : Nat → LatticeRange)
    (entries : List (DictionaryEntry × Nat)) : List LatticeNode :=
  entries.zipIdx.map fun ((entry, last), position) => ⟨(start, position), entry, range last⟩

def katakanaGraphemes (unicode : UnicodeTable) (composing : ComposingText) : List Grapheme :=
  graphemes unicode (toKatakana composing.surfaceText)

def buildLattice [Rounding] (order : HashOrder) (tables : InputTableRegistry)
    (modifiers : ConversionModifiers) (composing : ComposingText) : Option LatticeNodes :=
  let surfaceCount := composing.surface.length
  let surfaceNodes := (List.range surfaceCount).mapM fun start =>
    (surfaceEntries lookups modifiers.additionalEntries surfaceCount
      (katakanaGraphemes unicode composing) start).map
        (placeNodes (.surface start) (.surface start))
  surfaceNodes.map fun surfaceNodes =>
    { surfaceNodes
      inputNodes := (List.range composing.input.length).map fun start =>
        if modifiers.needTypoCorrection then
          placeNodes (.input start) (.input start)
            (inputEntries lookups order tables modifiers.additionalEntries composing.input start)
        else [] }

end nodes

def LatticeNodes.nodesAt (lattice : LatticeNodes) (index : DualIndex) : Option (List LatticeNode) :=
  let surface : Option (List LatticeNode) :=
    match index.surface? with
    | some surface => lattice.surfaceNodes[surface]?
    | none => some []
  let input : Option (List LatticeNode) :=
    match index.input? with
    | some input => lattice.inputNodes[input]?
    | none => some []
  surface.bind fun surface => input.map fun input => surface ++ input

/-! ### Constraints -/

def enforcesConstraint (constraint : PrefixConstraint) (entry : DictionaryEntry) : Bool :=
  !constraint.ignoreMemoryAndUserDictionary && !entry.metadata.learned &&
    !entry.metadata.userDictionary

def pathBytes (nodes : List LatticeNode) : List UInt8 :=
  nodes.reverse.flatMap fun node => utf8 node.entry.word

/-- `path_can_continue`, or `path_matches_fixed_prefix` where the entry is exempt. -/
def allowsPath (constraint : Option PrefixConstraint) (entry : DictionaryEntry)
    (path : RegisteredPath) : Bool :=
  constraint.all fun constraint =>
    if enforcesConstraint constraint entry then constraint.canContinue (pathBytes path.nodes)
    else constraint.matchesFixedPrefix (pathBytes path.nodes)

def allowsResult (constraint : Option PrefixConstraint) (entry : DictionaryEntry)
    (path : RegisteredPath) : Bool :=
  constraint.all fun constraint =>
    if enforcesConstraint constraint entry then constraint.isSatisfiedBy (pathBytes path.nodes)
    else constraint.matchesFixedPrefix (pathBytes path.nodes)

def allowsNext (constraint : Option PrefixConstraint) (next : DictionaryEntry)
    (path : RegisteredPath) : Bool :=
  constraint.all fun constraint =>
    let bytes := pathBytes path.nodes ++ utf8 next.word
    if enforcesConstraint constraint next then constraint.canContinue bytes
    else constraint.matchesFixedPrefix bytes

/-! ### The search -/

/-- The predecessors of every node, by its slot, and the complete paths so far. -/
structure SearchState where
  predecessors : LatticeIndex × Nat → List Predecessor
  results : List RegisteredPath

def startPredecessors : LatticeIndex × Nat → List Predecessor
  | (.surface 0, _) | (.input 0, _) => [⟨[], 0⟩]
  | _ => []

def insertPredecessor (nBest : Nat) (values : List Predecessor) (value : Predecessor) :
    List Predecessor :=
  TopK.insertBounded Predecessor.total nBest values value

section search
variable [Rounding] {unicode : UnicodeTable} (lookups : Lookups unicode)
  (context : ConversionContext)
  (nBest : Nat)

def completePath (node : LatticeNode) (predecessor : Predecessor) : RegisteredPath :=
  let headConnection :=
    if node.range.startsAtZero then lookups.connectionCost context.rightId node.entry.leftId else 0
  ⟨node :: predecessor.nodes,
    rounded (rounded (predecessor.total + node.entry.value) + headConnection)⟩

def extendTo (node next : LatticeNode) (path : RegisteredPath) : Predecessor :=
  ⟨path.nodes, rounded (path.total + lookups.connectionCost node.entry.rightId next.entry.leftId)⟩

/-- Hands the completed paths to one of the nodes that start where `node` ends. -/
def insertCompleted (constraint : Option PrefixConstraint) (node : LatticeNode)
    (completed : List RegisteredPath) (predecessors : LatticeIndex × Nat → List Predecessor)
    (next : LatticeNode) : LatticeIndex × Nat → List Predecessor :=
  Function.update predecessors next.slot <|
    ((completed.filter (allowsNext constraint next.entry)).map (extendTo lookups node next)).foldl
      (insertPredecessor nBest) (predecessors next.slot)

def processNode (map : DualIndexMap) (constraint : Option PrefixConstraint)
    (composing : ComposingText) (lattice : LatticeNodes) (state : SearchState)
    (node : LatticeNode) :
    Option SearchState :=
  let predecessors := state.predecessors node.slot
  if predecessors = [] then some state
  else
    let completed := (predecessors.map (completePath lookups context node)).filter
      (allowsPath constraint node.entry)
    let next := map.dual node.range.endIndex
    if next.surface? = some composing.surface.length ∨ next.input? =
      some composing.input.length then
      some { state with
        results := state.results ++ completed.filter (allowsResult constraint node.entry) }
    else
      (lattice.nodesAt next).map fun nextNodes =>
        { state with
          predecessors := nextNodes.foldl
            (insertCompleted lookups nBest constraint node completed) state.predecessors }

def processIndex (map : DualIndexMap) (constraint : Option PrefixConstraint)
    (composing : ComposingText) (lattice : LatticeNodes) (state : SearchState) (index : DualIndex) :
    Option SearchState :=
  (lattice.nodesAt index).bind fun nodes =>
    nodes.foldlM (processNode lookups context nBest map constraint composing lattice) state

/-- The search of `convert_with_entries_typo_and_constraint`: the paths kept at the end. -/
def latticeResults (order : HashOrder) (tables : InputTableRegistry)
    (modifiers : ConversionModifiers) (composing : ComposingText) : Option (List RegisteredPath) :=
  if nBest = 0 ∨ composing.surface = [] then some []
  else
    let map := DualIndexMap.new order composing tables
    (buildLattice lookups order tables modifiers composing).bind fun lattice =>
      let indices := map.indices composing.input.length composing.surface.length
      (indices.foldlM
        (processIndex lookups context nBest map modifiers.constraint composing lattice)
        ⟨startPredecessors, []⟩).map SearchState.results

end search

end BeanKey.Lattice
